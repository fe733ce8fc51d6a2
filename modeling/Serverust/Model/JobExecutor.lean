import Serverust.Model.PythonRunner

/-!
# Job executor

The venv in which an item of the queue runs.
-/

namespace Serverust

structure JobExecutor where
  runner : PythonRunner
  mainVenvPath : Path
  customVenvBasePath : Path

namespace JobExecutor

variable (executor : JobExecutor)

def getVenvPath (item : QueueItem) : Path :=
  if item.useCustomVenv then executor.customVenvBasePath.join ("job-" ++ item.jobId.text)
  else executor.mainVenvPath

/-- The interpreter that `execute` and `execute_with_pid` run. -/
def interpreter (host : Host) (item : QueueItem) : Path :=
  executor.runner.chosenPythonPath host (executor.getVenvPath item)

end JobExecutor

end Serverust
