import Io2Proofs.Executor.Ring
import Io2Proofs.Executor.Tables
import Io2Proofs.Executor.Timers
import Io2Proofs.Executor.State
import Io2Proofs.Executor.Step
import Io2Proofs.Executor.TaskTable
import Io2Proofs.Executor.IoRecords
import Io2Proofs.Executor.JoinHandles
import Io2Proofs.Executor.Preemption
import Io2Proofs.Executor.Exit
import Io2Proofs.Executor.Lifecycle
import Io2Proofs.Executor.Wakeups
import Io2Proofs.Executor.Closes
import Io2Proofs.Executor.Results
import Io2Proofs.Executor.Submission
import Io2Proofs.Executor.Polls
import Io2Proofs.Executor.Owners
import Io2Proofs.Executor.Budget
import Io2Proofs.Fs.File
import Io2Proofs.Fs.Resolve
import Io2Proofs.LocalAlloc.Basic
import Io2Proofs.LocalAlloc.Defects
import Io2Proofs.LocalAlloc.Placement
import Io2Proofs.LocalAlloc.Partition
import Io2Proofs.LocalAlloc.Reuse
