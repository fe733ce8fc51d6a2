import Serverust.Library.PythonLiteral
import Serverust.Model.Entities

/-!
# Python runner

The program text that runs a job, and the interpreter it is given to. The three ways to execute a job
build the text from the same template, and choose the interpreter alike.
-/

namespace Serverust

/-- The components of a path. -/
abbrev Path := List String

/-- `path.join(name)`, where the name is one component. -/
def Path.join (path : Path) (name : String) : Path := path ++ [name]

/-- What the runner asks of the host: `cfg!(windows)` and `path.exists()`. -/
structure Host where
  windows : Bool
  pathExists : Path → Bool

structure PythonRunner where
  pythonExecutable : Path

namespace PythonRunner

/-- The interpreter of a venv. -/
def pythonPath (host : Host) (venvPath : Path) : Path :=
  if host.windows then (Path.join venvPath "Scripts").join "python.exe"
  else (Path.join venvPath "bin").join "python"

/-- The interpreter that runs a job: the one of the venv, or the configured one if that is not there. -/
def chosenPythonPath (runner : PythonRunner) (host : Host) (venvPath : Path) : Path :=
  if host.pathExists (pythonPath host venvPath) then pythonPath host venvPath else runner.pythonExecutable

/-- The template up to the quotes that open the literal of the input. -/
def templateHead : String :=
  "\nimport json\nimport sys\n\n# Input data\nINPUT_DATA = json.loads('''"

/-- The template behind the quotes that close the literal. -/
def templateTail (code : String) : String := ")\n\n# User code\n" ++ code ++ "\n"

/-- `input.replace("'''", r"\'\'\'")`. -/
def encodeInput (input : String) : String := String.ofList (PythonLiteral.replaceQuotes input.toList)

/-- The program: the code alone, or behind a binding of `INPUT_DATA`. -/
def fullCode (code : String) (inputData : Option String) : String :=
  match inputData with
  | some input => templateHead ++ encodeInput input ++ "'''" ++ templateTail code
  | none => code

end PythonRunner

end Serverust
