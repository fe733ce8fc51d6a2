import Mathlib.Data.List.Basic
import Mathlib.Tactic.IntervalCases

/-!
# Triple-quoted Python literals

A text between `'''` quotes is first cut off at its end and then decoded. In both, a backslash and what
it escapes belong together. `Reads` says what a text decodes to, one escape or plain character after
another; it is independent of how the quotes of the text are escaped to put it into a literal.
-/

namespace PythonLiteral

/-! ### The end of the literal -/

/-- Cut a text that follows opening quotes: the literal, and what follows its closing quotes. A backslash
consumes the next character. -/
def scan : List Char → Option (List Char × List Char)
  | '\\' :: c :: rest => (scan rest).map fun r => ('\\' :: c :: r.1, r.2)
  | '\'' :: '\'' :: '\'' :: rest => some ([], rest)
  | c :: rest => (scan rest).map fun r => (c :: r.1, r.2)
  | [] => none

/-! ### Escapes -/

/-- The code point of an escape of one character. -/
def single : Char → Option Nat
  | '\\' => some 92
  | '\'' => some 39
  | '\"' => some 34
  | 'a' => some 7
  | 'b' => some 8
  | 'f' => some 12
  | 'n' => some 10
  | 'r' => some 13
  | 't' => some 9
  | 'v' => some 11
  | _ => none

def isOctal (c : Char) : Bool := '0' ≤ c && c ≤ '7'

def hexDigit (c : Char) : Option Nat :=
  if '0' ≤ c ∧ c ≤ '9' then some (c.toNat - 48)
  else if 'a' ≤ c ∧ c ≤ 'f' then some (c.toNat - 87)
  else if 'A' ≤ c ∧ c ≤ 'F' then some (c.toNat - 55)
  else none

def hexValue (digits : List Char) : Option Nat :=
  digits.foldlM (fun n c => (hexDigit c).map (16 * n + ·)) 0

/-- An escape with exactly `width` hexadecimal digits; a code point is at most `10FFFF`. -/
def hexEscape (width : Nat) (rest : List Char) : Option (List Nat × Nat) :=
  if rest.length < width then none
  else
    match hexValue (rest.take width) with
    | some n => if n ≤ 0x10FFFF then some ([n], width + 1) else none
    | none => none

/-- `{name}` after `N`. -/
def nameEscape (names : List Char → Option Nat) : List Char → Option (List Nat × Nat)
  | '{' :: rest =>
    let name := rest.takeWhile fun c => c ≠ '}'
    if name.length < rest.length then (names name).map fun n => ([n], name.length + 3) else none
  | _ => none

/-- What a backslash and the text behind it denote: the code points, and how many characters behind the
backslash they take. Nothing is a syntax error. `names` is the table of character names. -/
def escape (names : List Char → Option Nat) : List Char → Option (List Nat × Nat)
  | [] => none
  | c :: rest =>
    match single c with
    | some n => some ([n], 1)
    | none =>
      if c = '\n' then some ([], 1)
      else if isOctal c then
        let digits := (c :: rest.take 2).takeWhile isOctal
        some ([digits.foldl (fun n d => 8 * n + (d.toNat - 48)) 0], digits.length)
      else if c = 'x' then hexEscape 2 rest
      else if c = 'u' then hexEscape 4 rest
      else if c = 'U' then hexEscape 8 rest
      else if c = 'N' then nameEscape names rest
      -- an unknown escape stands for itself, with its backslash
      else some ([92], 0)

/-- Decode the text of a literal, after `skip` characters that an escape has taken. -/
def decodeFrom (names : List Char → Option Nat) : Nat → List Char → Option (List Nat)
  | _, [] => some []
  | skip + 1, _ :: rest => decodeFrom names skip rest
  | 0, c :: rest =>
    if c = '\\' then
      match escape names rest with
      | some (values, taken) => (decodeFrom names taken rest).map (values ++ ·)
      | none => none
    else (decodeFrom names 0 rest).map (c.toNat :: ·)

/-- The code points of a literal's value. -/
def decode (names : List Char → Option Nat) (text : List Char) : Option (List Nat) :=
  decodeFrom names 0 text

variable {names : List Char → Option Nat} {s rest : List Char} {c : Char} {t : List Nat} {n : Nat}

/-! ### One step of the scan and of the decoding -/

theorem scan_escape (c : Char) (rest : List Char) :
    scan ('\\' :: c :: rest) = (scan rest).map fun r => ('\\' :: c :: r.1, r.2) := by
  rw [scan]

theorem scan_close (rest : List Char) : scan ('\'' :: '\'' :: '\'' :: rest) = some ([], rest) := by
  simp [scan]

theorem scan_plain (hc : c ≠ '\\') (hquote : c ≠ '\'') (rest : List Char) :
    scan (c :: rest) = (scan rest).map fun r => (c :: r.1, r.2) := by
  rw [scan]
  · intro _ _ h
    exact absurd h hc
  · intro _ h
    exact absurd h hquote

theorem scan_quote (hc : c ≠ '\'') (rest : List Char) :
    scan ('\'' :: c :: rest) = (scan (c :: rest)).map fun r => ('\'' :: r.1, r.2) := by
  conv_lhs => unfold scan
  simp [hc]

theorem scan_two_quotes (hc : c ≠ '\'') (rest : List Char) :
    scan ('\'' :: '\'' :: c :: rest) = (scan (c :: rest)).map fun r => ('\'' :: '\'' :: r.1, r.2) := by
  conv_lhs => unfold scan
  simp [hc, scan_quote, Function.comp_def]

theorem decodeFrom_append (e rest : List Char) :
    decodeFrom names e.length (e ++ rest) = decodeFrom names 0 rest := by
  induction e with
  | nil => rfl
  | cons c e ih => exact ih

theorem decode_plain (hc : c ≠ '\\') (rest : List Char) :
    decode names (c :: rest) = (decode names rest).map (c.toNat :: ·) := by
  simp only [decode, decodeFrom, hc, if_false]

theorem decode_escape {e : List Char} (h : escape names (e ++ rest) = some ([n], e.length)) :
    decode names ('\\' :: (e ++ rest)) = (decode names rest).map (n :: ·) := by
  simp only [decode, decodeFrom, if_true, h, decodeFrom_append, List.singleton_append]

theorem decode_quote (rest : List Char) :
    decode names ('\\' :: '\'' :: rest) = (decode names rest).map (39 :: ·) :=
  decode_escape (e := ['\'']) rfl

/-! ### What a text decodes to -/

/-- An escape of one code point, without quotes, whose further characters are plain. -/
structure Escape (names : List Char → Option Nat) (e : List Char) (n : Nat) : Prop where
  value : ∀ rest, escape names (e ++ rest) = some ([n], e.length)
  noQuote : ∀ c ∈ e, c ≠ '\''
  plain : ∀ c ∈ e.tail, c ≠ '\\'

/-- The conditions on the characters, as tests. -/
theorem Escape.of_all {e : List Char} {n : Nat} (hvalue : ∀ rest, escape names (e ++ rest) = some ([n], e.length))
    (hquote : (e.all fun c => c != '\'') = true) (hplain : (e.tail.all fun c => c != '\\') = true) :
    Escape names e n where
  value := hvalue
  noQuote c hc := by simpa using List.all_eq_true.mp hquote c hc
  plain c hc := by simpa using List.all_eq_true.mp hplain c hc

/-- The text decodes to these code points, and its escapes leave its quotes alone. -/
inductive Reads (names : List Char → Option Nat) : List Char → List Nat → Prop
  | nil : Reads names [] []
  | plain {c : Char} {s : List Char} {t : List Nat} (hc : c ≠ '\\') (h : Reads names s t) :
      Reads names (c :: s) (c.toNat :: t)
  | escape {e s : List Char} {n : Nat} {t : List Nat} (he : Escape names e n) (h : Reads names s t) :
      Reads names ('\\' :: (e ++ s)) (n :: t)

namespace Reads

theorem append {s' : List Char} {t' : List Nat} (h : Reads names s t) (h' : Reads names s' t') :
    Reads names (s ++ s') (t ++ t') := by
  induction h with
  | nil => exact h'
  | plain hc _ ih => exact .plain hc ih
  | escape he _ ih =>
      rw [List.cons_append, List.append_assoc]
      exact .escape he ih

/-- A text without backslashes stands for itself. -/
theorem of_plain (h : ∀ c ∈ s, c ≠ '\\') : Reads names s (s.map Char.toNat) := by
  induction s with
  | nil => exact .nil
  | cons c s ih => exact .plain (h c List.mem_cons_self) (ih fun d hd => h d (List.mem_cons_of_mem c hd))

theorem of_all (h : (s.all fun c => c != '\\') = true) : Reads names s (s.map Char.toNat) :=
  of_plain fun c hc => by simpa using List.all_eq_true.mp h c hc

theorem ofEscape {e : List Char} (he : Escape names e n) : Reads names ('\\' :: e) [n] := by
  simpa only [List.append_nil] using Reads.escape he .nil

end Reads

/-! ### Escaping the quotes of a text -/

/-- `str::replace` of `'''` by `\'\'\'`: leftmost occurrences first, without overlap. -/
def replaceQuotes : List Char → List Char
  | '\'' :: '\'' :: '\'' :: rest => '\\' :: '\'' :: '\\' :: '\'' :: '\\' :: '\'' :: replaceQuotes rest
  | c :: rest => c :: replaceQuotes rest
  | [] => []

theorem replaceQuotes_of_ne (hc : c ≠ '\'') (rest : List Char) :
    replaceQuotes (c :: rest) = c :: replaceQuotes rest := by
  rw [replaceQuotes]
  intro _ h
  exact absurd h hc

theorem replaceQuotes_append {e : List Char} (he : ∀ c ∈ e, c ≠ '\'') (rest : List Char) :
    replaceQuotes (e ++ rest) = e ++ replaceQuotes rest := by
  induction e with
  | nil => rfl
  | cons c e ih =>
      rw [List.cons_append, replaceQuotes_of_ne (he c List.mem_cons_self),
        ih fun d hd => he d (List.mem_cons_of_mem c hd), List.cons_append]

theorem replaceQuotes_quote (hc : c ≠ '\'') (rest : List Char) :
    replaceQuotes ('\'' :: c :: rest) = '\'' :: c :: replaceQuotes rest := by
  conv_lhs => unfold replaceQuotes
  simp [hc, replaceQuotes_of_ne]

/-- At most two quotes in front of something else are left as they are. -/
theorem replaceQuotes_replicate {k : Nat} (hk : k ≤ 2) (hc : c ≠ '\'') (rest : List Char) :
    replaceQuotes (List.replicate k '\'' ++ c :: rest) = List.replicate k '\'' ++ c :: replaceQuotes rest := by
  interval_cases k
  · exact replaceQuotes_of_ne hc rest
  · exact replaceQuotes_quote hc rest
  · show replaceQuotes ('\'' :: '\'' :: c :: rest) = _
    conv_lhs => unfold replaceQuotes
    simp [hc, replaceQuotes_quote]

theorem decode_replicate (k : Nat) (rest : List Char) :
    decode names (List.replicate k '\'' ++ rest) = (decode names rest).map (List.replicate k 39 ++ ·) := by
  induction k with
  | zero => simp
  | succ k ih =>
      rw [List.replicate_succ, List.cons_append, decode_plain (by decide), ih, Option.map_map]
      rfl

theorem scan_replicate {k : Nat} (hk : k ≤ 2) (hc : c ≠ '\'') (rest : List Char) :
    scan (List.replicate k '\'' ++ c :: rest) =
      (scan (c :: rest)).map fun r => (List.replicate k '\'' ++ r.1, r.2) := by
  interval_cases k
  · simp
  · exact scan_quote hc rest
  · exact scan_two_quotes hc rest

/-- The escaped text decodes to what the text itself does. In the induction up to two quotes stand in
front of the text: with a quote more they are escaped. -/
theorem Reads.decode_replaceQuotes (h : Reads names s t) {k : Nat} (hk : k ≤ 2) :
    decode names (replaceQuotes (List.replicate k '\'' ++ s)) = some (List.replicate k 39 ++ t) := by
  induction h generalizing k with
  | nil =>
      interval_cases k <;> simp [replaceQuotes, decode, decodeFrom]
  | @plain c s t hc h ih =>
      by_cases hquote : c = '\''
      · subst hquote
        interval_cases k
        · exact ih (k := 1) (by omega)
        · exact ih (k := 2) (by omega)
        · have hrest : decode names (replaceQuotes s) = some t := ih (k := 0) (by omega)
          simp [List.replicate, replaceQuotes, decode_quote, hrest]
      · have hrest : decode names (replaceQuotes s) = some t := ih (k := 0) (by omega)
        simp [replaceQuotes_replicate hk hquote, decode_replicate, decode_plain hc, hrest]
  | @escape e s n t he h ih =>
      have hrest : decode names (replaceQuotes s) = some t := ih (k := 0) (by omega)
      have hreplace := replaceQuotes_append he.noQuote s
      simp [replaceQuotes_replicate hk (by decide : '\\' ≠ '\''), decode_replicate, hreplace,
        decode_escape (he.value _), hrest]

theorem scan_append {e : List Char} (hplain : ∀ c ∈ e, c ≠ '\\') (hquote : ∀ c ∈ e, c ≠ '\'')
    (rest : List Char) : scan (e ++ rest) = (scan rest).map fun r => (e ++ r.1, r.2) := by
  induction e with
  | nil => simp
  | cons c e ih =>
      rw [List.cons_append, scan_plain (hplain c List.mem_cons_self) (hquote c List.mem_cons_self),
        ih (fun d hd => hplain d (List.mem_cons_of_mem c hd)) (fun d hd => hquote d (List.mem_cons_of_mem c hd)),
        Option.map_map]
      rfl

theorem Escape.scan {e : List Char} (he : Escape names e n) (rest : List Char) :
    PythonLiteral.scan ('\\' :: (e ++ rest)) =
      (PythonLiteral.scan rest).map fun r => ('\\' :: (e ++ r.1), r.2) := by
  cases e with
  | nil => simpa [PythonLiteral.escape] using he.value []
  | cons c e =>
      have htail := scan_append (e := e) he.plain (fun d hd => he.noQuote d (List.mem_cons_of_mem c hd)) rest
      rw [List.cons_append, scan_escape, htail, Option.map_map]
      rfl

/-- The escaped text is the whole literal: only the quotes that follow it close it. -/
theorem Reads.scan_replaceQuotes (h : Reads names s t) {k : Nat} (hk : k ≤ 2)
    (hlast : (List.replicate k '\'' ++ s).getLast? ≠ some '\'') (rest : List Char) :
    scan (replaceQuotes (List.replicate k '\'' ++ s) ++ '\'' :: '\'' :: '\'' :: rest) =
      some (replaceQuotes (List.replicate k '\'' ++ s), rest) := by
  induction h generalizing k with
  | nil =>
      interval_cases k
      · exact scan_close rest
      · exact absurd rfl hlast
      · exact absurd rfl hlast
  | @plain c s t hc h ih =>
      have hend : s.getLast? ≠ some '\'' := by
        intro hs
        apply hlast
        simp [List.getLast?_append, List.getLast?_cons, hs]
      have hrest := ih (k := 0) (by omega) hend
      simp only [List.replicate_zero, List.nil_append] at hrest
      by_cases hquote : c = '\''
      · subst hquote
        interval_cases k
        · exact ih (k := 1) (by omega) hlast
        · exact ih (k := 2) (by omega) hlast
        · simp [List.replicate, replaceQuotes, scan_escape, hrest]
      · simp [replaceQuotes_replicate hk hquote, scan_replicate hk hquote, scan_plain hc hquote, hrest]
  | @escape e s n t he h ih =>
      have hend : s.getLast? ≠ some '\'' := by
        intro hs
        apply hlast
        simp [List.getLast?_append, List.getLast?_cons, hs]
      have hrest := ih (k := 0) (by omega) hend
      simp only [List.replicate_zero, List.nil_append] at hrest
      have hslash : '\\' ≠ '\'' := by decide
      simp [replaceQuotes_replicate hk hslash, scan_replicate hk hslash, replaceQuotes_append he.noQuote,
        he.scan, hrest]

end PythonLiteral
