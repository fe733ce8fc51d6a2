import Serverust.Library.Calendar
import Mathlib.Data.String.Basic

/-!
# Timestamps as text

Every timestamp column holds text. `chrono` writes it with `to_rfc3339`, and SQLite writes the current
time with `datetime('now')`. SQLite compares text byte by byte, which for UTF-8 is the order of
`String`.
-/

namespace Serverust

open Calendar

def digit (n : Nat) : Char := Char.ofNat (48 + n)

/-- The last `width` decimal digits of a number, with leading zeros. -/
def pad : Nat → Nat → List Char
  | 0, _ => []
  | width + 1, n => pad width (n / 10) ++ [digit (n % 10)]

/-- `YYYY-MM-DD`. -/
def dateText (d : Date) : List Char :=
  pad 4 d.year ++ '-' :: (pad 2 d.month ++ '-' :: pad 2 d.day)

/-- `HH:MM:SS`. -/
def timeText (t : DateTime) : List Char :=
  pad 2 t.hour ++ ':' :: (pad 2 t.minute ++ ':' :: pad 2 t.second)

/-- The fraction of a second in its shortest form of 0, 3, 6 or 9 digits. -/
def fractionText (nanos : Nat) : List Char :=
  if nanos = 0 then []
  else if nanos % 1000000 = 0 then '.' :: pad 3 (nanos / 1000000)
  else if nanos % 1000 = 0 then '.' :: pad 6 (nanos / 1000)
  else '.' :: pad 9 nanos

/-- `DateTime<Utc>::to_rfc3339`. -/
def toRfc3339 (t : DateTime) : String :=
  String.ofList (dateText t.date ++ 'T' :: (timeText t ++ (fractionText t.nanos ++ "+00:00".toList)))

/-- SQLite's `datetime('now')`, when the current instant is `t`. -/
def sqliteDatetime (t : DateTime) : String :=
  String.ofList (dateText t.date ++ ' ' :: timeText t)

end Serverust
