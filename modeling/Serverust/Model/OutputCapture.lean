import Serverust.Library.Lines
import Serverust.Library.Utf8
import Serverust.Model.WorkerPool

/-!
# Captured output

The two streams of a job's process are read line by line into strings, until the stream ends or a line
cannot be read. How the process ends is a parameter.
-/

namespace Serverust

/-- The bytes that `next_line` reads one after the other: up to a line feed, or to the end. -/
def rawLines (stream : List UInt8) : List (List UInt8) := Lines.cut (fun byte => byte = 10) stream

/-- What `next_line` strips from a line: a line feed, and then a carriage return before it. -/
def stripEnd (line : List Char) : List Char :=
  match line.reverse with
  | '\n' :: '\r' :: body => body.reverse
  | '\n' :: body => body.reverse
  | _ => line

/-- `while let Ok(Some(line)) = lines.next_line()`, which ends at a line that is not UTF-8. -/
def readLines : List (List UInt8) → List Char
  | [] => []
  | raw :: rest =>
    match Utf8.decode raw with
    | some line => stripEnd line ++ '\n' :: readLines rest
    | none => []

/-- How waiting for the process ends: it exits, the wait fails, or the time is up and it is killed. -/
inductive WaitResult where
  | exited (code : Option Int)
  | failed
  | elapsed

/-- A process that was spawned: the bytes it writes until it ends, and how it ends. -/
structure Child where
  stdout : List UInt8
  stderr : List UInt8
  wait : WaitResult

namespace PythonRunner

/-- The task that reads one stream. -/
def capture (stream : List UInt8) : String := String.ofList (readLines (rawLines stream))

def memoryIndicators : List String :=
  ["MemoryError", "Cannot allocate memory", "Out of memory", "memory allocation failed", "std::bad_alloc"]

def checkMemoryExceeded (exitCode : Option Int) (stderr : String) : Bool :=
  exitCode = some (-9) || exitCode = some 137 ||
    memoryIndicators.any fun indicator => indicator.toList <:+: stderr.toList

/-- `spawn_with_limits`, on what `spawn` yields. -/
def spawnWithLimits (spawned : Except String Child) : Except String ExecutionResult :=
  match spawned with
  | .error e => .error ("Failed to spawn Python process: " ++ e)
  | .ok child =>
    let (timedOut, exitCode) := match child.wait with
      | .exited code => (false, code)
      | .failed => (false, none)
      | .elapsed => (true, none)
    let stdout := capture child.stdout
    let stderr := capture child.stderr
    let memoryExceeded := checkMemoryExceeded exitCode stderr
    .ok {
      success := !timedOut && !memoryExceeded && exitCode = some 0
      stdout, stderr, exitCode, timedOut, memoryExceeded }

end PythonRunner

end Serverust
