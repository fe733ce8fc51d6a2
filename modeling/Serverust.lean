import Serverust.Library.Pool
import Serverust.Model.ProcessManager
import Serverust.Model.ScheduleService
import Serverust.Model.WorkerPool
import Serverust.Proof.AddEdge
import Serverust.Proof.Advance
import Serverust.Proof.Attempts
import Serverust.Proof.CacheRows
import Serverust.Proof.Cancellation
import Serverust.Proof.Completion
import Serverust.Proof.Conflicts
import Serverust.Proof.Counters
import Serverust.Proof.CrashSafety
import Serverust.Proof.Dependencies
import Serverust.Proof.DependencyStatus
import Serverust.Proof.Dispatch
import Serverust.Proof.DueSchedules
import Serverust.Proof.EdgeRules
import Serverust.Proof.Finality
import Serverust.Proof.HeapOrder
import Serverust.Proof.InputData
import Serverust.Proof.Interpreter
import Serverust.Proof.JobEdits
import Serverust.Proof.JobLimits
import Serverust.Proof.JobNames
import Serverust.Proof.Laps
import Serverust.Proof.Levels
import Serverust.Proof.Listing
import Serverust.Proof.LogStream
import Serverust.Proof.NoLoss
import Serverust.Proof.OneExecution
import Serverust.Proof.OneSchedule
import Serverust.Proof.OrderIndependence
import Serverust.Proof.OrphanRuns
import Serverust.Proof.OutputLines
import Serverust.Proof.PackageMirror
import Serverust.Proof.PipArguments
import Serverust.Proof.PopOrder
import Serverust.Proof.Preview
import Serverust.Proof.Progress
import Serverust.Proof.PythonVersions
import Serverust.Proof.QueueOrder
import Serverust.Proof.Recover
import Serverust.Proof.Reenabling
import Serverust.Proof.Removal
import Serverust.Proof.Retention
import Serverust.Proof.RetryTree
import Serverust.Proof.SameItem
import Serverust.Proof.ScheduleEdits
import Serverust.Proof.ServerDrain
import Serverust.Proof.Signals
import Serverust.Proof.Slots
import Serverust.Proof.StopPolicy
import Serverust.Proof.Ticks
import Serverust.Proof.Trigger
import Serverust.Proof.TriggerFaults
import Serverust.Proof.TwoStores
import Serverust.Proof.VenvDirs
