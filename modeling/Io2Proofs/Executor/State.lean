import Io2Proofs.Executor.Ring
import Io2Proofs.Executor.Timers

/-!
# The executor's state and the task context

`run` keeps its state in local variables that the `CurrentTaskContext` of the polled task
reaches through raw pointers. `Exec` gathers them, with the thread-local `FILES_TO_CLOSE`, the
clock, the two rings, and where the loop of `run` is (`pc`). A task acts on the state only
through its context:

* `CurrentTaskContext.queueIo`, `takeIoResult`, `notify`, `yieldIfNeeded`, `spawn`,
  `notifyWhen` — the methods of `CurrentTaskContext`;
* `JoinHandle.poll` — `self.out.take()` on the cell a handle shares with its child;
* `File.drop` — a dropped file queues its descriptor on `FILES_TO_CLOSE`;
* `Exec.finishTask` — a task's future returned `Ready`: the wrapper of `run` fills `out`, the
  wrapper of `spawn` fills the join cell and notifies the caller, and `run` drops the task.

What a task's future does between these calls is any code: `Executor.Step` lets a running task
call its context in any order.
-/

namespace Io2Proofs.Executor

/-! ### Tasks, join cells and the loop's position -/

/-- What a slot of the task table holds: the wrapper `run` builds around the root future, the
reserved `async {}` of the close-file record, or the wrapper `spawn` builds around a child, which
keeps the caller's task id and the join cell it fills. -/
inductive Task
  | root
  | closeFile
  | spawned (callerTaskId : Nat) (out : Nat)
  deriving DecidableEq, Repr

/-- The `RefCell<Option<T>>` a `JoinHandle` shares with its child. The cell holds `None` before
the child finishes and again after the handle took the value; the model keeps the two apart. -/
inductive Slot (α : Type)
  | running
  | filled (v : α)
  | taken (v : α)
  deriving DecidableEq, Repr

/-- The `Option<T>` in the cell. -/
def Slot.get {α : Type} : Slot α → Option α
  | .filled v => some v
  | _ => none

@[simp] theorem Slot.get_eq_some {α : Type} {x : Slot α} {v : α} : x.get = some v ↔ x = .filled v := by
  cases x <;> simp [Slot.get]

/-- Where the loop of `run` is. -/
inductive Pc
  /-- The `while` condition. -/
  | head
  /-- The check "nothing to submit, nothing completed yet and there are no tasks to run". -/
  | idle
  /-- The `'wait` loop. -/
  | wait
  /-- `let start = Instant::now()` and the snapshot of the ready set into `notifying`. -/
  | drain
  /-- `while let Some(task_id) = notifying.pop()`. -/
  | polling
  /-- Inside `task.as_mut().poll(..)` of the task `taskId`. -/
  | running (taskId : Nat)
  /-- After a poll: the preemption check and the opportunistic submits. -/
  | polled
  /-- The two `try_submit_io` calls after the drain. -/
  | submit
  /-- Draining both completion queues. -/
  | complete
  /-- `notify_timers`. -/
  | timers
  /-- The deferred closes of `FILES_TO_CLOSE`. -/
  | closes
  /-- The loop has ended: `run` returns `Ok(out.unwrap())`. -/
  | exited
  /-- An `unwrap`, a `checked_sub` or a `panic!` failed. -/
  | panicked
  deriving DecidableEq, Repr

/-- **The executor's state.** The locals of `run`, the thread-local `FILES_TO_CLOSE`, the clock
`now`, and where the loop is. `slots` are the join cells in the order `spawn` made them.
`joinWaits` is ghost state: the (task, join cell) pairs whose `JoinHandle::poll` answered
`Pending` during the task's latest poll. -/
structure Exec (α : Type) where
  pc : Pc
  now : Nat
  start : Nat
  preemptDuration : Nat
  tasks : Slab Task
  io : Slab Nat
  ioQueue : List Entry
  dioQueue : List Entry
  ring : Ring
  dioRing : Ring
  ioResults : VecMap Nat Int
  toNotify : VecMap Nat Unit
  notifying : List Nat
  notifyWhen : NotifyWhen
  numDioRunning : Nat
  closeFileTaskId : Nat
  closeFileIoId : Nat
  filesClosing : Nat
  filesToClose : List Int
  out : Option α
  slots : List (Slot α)
  joinWaits : List (Nat × Nat)

variable {α : Type}

/-! ### `CurrentTaskContext` -/

namespace CurrentTaskContext

variable (s : Exec α) (taskId : Nat)

/-- `notify(task_id)`: the task joins the ready set. -/
def notify (id : Nat) : Exec α := { s with toNotify := s.toNotify.insert id () }

/-- `take_io_result(io_id)`: the result if one was posted, and the state. Taking a result
removes the I/O record. -/
def takeIoResult (ioId : Nat) : Option Int × Exec α :=
  match s.ioResults.remove ioId with
  | (some res, rest) => (some res, { s with ioResults := rest, io := s.io.remove ioId })
  | (none, rest) => (none, { s with ioResults := rest })

/-- `yield_if_needed()` of the task `taskId`: past the preemption budget of the iteration, the
task makes itself ready again and answers `true`. -/
def yieldIfNeeded : Bool × Exec α :=
  if s.now - s.start < s.preemptDuration then (false, s) else (true, notify s taskId)

/-- `spawn(future)` by the task `taskId`, when the task table hands out the key `child`: a new
join cell, the child's wrapper recorded with the caller and the cell, and the child ready. The
result is the `JoinHandle`, the cell's index. -/
def spawn (child : Nat) : Nat × Exec α :=
  (s.slots.length, notify
    { s with
      slots := s.slots ++ [.running]
      tasks := s.tasks.insert child (.spawned taskId s.slots.length) } child)

/-- `queue_io(entry, direct_io)` by the task `taskId`, when the I/O slab hands out the key
`ioId`: the record names the task, the entry carries the key as user data, and a direct entry
is counted in `num_dio_running`. -/
def queueIo (entry : Entry) (directIo : Bool) (ioId : Nat) : Exec α :=
  let s := { s with io := s.io.insert ioId taskId }
  if directIo then
    { s with
      numDioRunning := s.numDioRunning + 1
      dioQueue := s.dioQueue ++ [entry.withUserData ioId] }
  else { s with ioQueue := s.ioQueue ++ [entry.withUserData ioId] }

/-- `notify_when(when)` by the task `taskId`. -/
def notifyWhen (when : Nat) : Exec α :=
  { s with notifyWhen := ⟨s.notifyWhen.timer ++ [when], s.notifyWhen.taskId ++ [taskId]⟩ }

end CurrentTaskContext

/-- `JoinHandle::poll`: `self.out.take()`. -/
def JoinHandle.poll (s : Exec α) (out : Nat) : Option α × Exec α :=
  match (s.slots.getD out .running).get with
  | some v => (some v, { s with slots := s.slots.set out (.taken v) })
  | none => (none, s)

/-- `File::drop`: the descriptor joins `FILES_TO_CLOSE`. -/
def File.drop (s : Exec α) (fd : Int) : Exec α := { s with filesToClose := s.filesToClose ++ [fd] }

/-- What the wrapper of a task does with the value `v` its future returned: the wrapper `run`
builds around the root future stores it in `out`; the wrapper `spawn` builds stores it in the
join cell and notifies the caller. -/
def Exec.storeOutput (s : Exec α) (v : α) : Option Task → Exec α
  | some .root => { s with out := some v }
  | some (.spawned caller out) =>
    CurrentTaskContext.notify { s with slots := s.slots.set out (.filled v) } caller
  | _ => s

/-- The wrapper writes `out`, the join cells and the ready set only. -/
theorem Exec.storeOutput_frame (s : Exec α) (v : α) (task : Option Task) :
    ∃ out slots toNotify,
      s.storeOutput v task = { s with out := out, slots := slots, toNotify := toNotify } := by
  unfold Exec.storeOutput; split <;> exact ⟨_, _, _, rfl⟩

/-- The future of the task `taskId` returned `Ready(v)`: its wrapper stores the value, and
`run` drops the task (`tasks.remove(task_id)`). -/
def Exec.finishTask (s : Exec α) (taskId : Nat) (v : α) : Exec α :=
  { s.storeOutput v (s.tasks.get taskId) with tasks := s.tasks.remove taskId }

/-! ### The state `run` starts its loop in -/

/-- The state `run` enters its loop in: the close-file task and the root task in the task
table, the close-file I/O record, the root task ready, everything else empty, and whatever
`FILES_TO_CLOSE` holds already (an earlier executor on the thread may have left descriptors
there). -/
structure Exec.Initial (s : Exec α) : Prop where
  pc : s.pc = .head
  tasks : ∃ root, root ≠ s.closeFileTaskId ∧
    s.tasks = ⟨[(s.closeFileTaskId, .closeFile), (root, .root)]⟩ ∧ s.toNotify = ⟨[(root, ())]⟩
  io : s.io = ⟨[(s.closeFileIoId, s.closeFileTaskId)]⟩
  ioQueue : s.ioQueue = []
  dioQueue : s.dioQueue = []
  ring : s.ring.sq = [] ∧ s.ring.inflight = [] ∧ s.ring.cq = []
  dioRing : s.dioRing.sq = [] ∧ s.dioRing.inflight = [] ∧ s.dioRing.cq = []
  ioResults : s.ioResults = VecMap.empty
  notifying : s.notifying = []
  notifyWhen : s.notifyWhen = ⟨[], []⟩
  numDioRunning : s.numDioRunning = 0
  filesClosing : s.filesClosing = 0
  out : s.out = none
  slots : s.slots = []
  joinWaits : s.joinWaits = []

/-- The state `run` enters its loop in with the default `ExecutorConfig` (rings of depth `64`, a
preemption budget of `10`, the clock counting milliseconds from `0`) and an empty
`FILES_TO_CLOSE`. The slabs hand out keys from `0`: the close-file task and its record get `0`,
the root task `1`. -/
def Exec.boot (α : Type) : Exec α where
  pc := .head
  now := 0
  start := 0
  preemptDuration := 10
  tasks := ⟨[(0, .closeFile), (1, .root)]⟩
  io := ⟨[(0, 0)]⟩
  ioQueue := []
  dioQueue := []
  ring := Ring.empty 64 (by decide)
  dioRing := Ring.empty 64 (by decide)
  ioResults := VecMap.empty
  toNotify := ⟨[(1, ())]⟩
  notifying := []
  notifyWhen := ⟨[], []⟩
  numDioRunning := 0
  closeFileTaskId := 0
  closeFileIoId := 0
  filesClosing := 0
  filesToClose := []
  out := none
  slots := []
  joinWaits := []

theorem Exec.boot_initial (α : Type) : (Exec.boot α).Initial :=
  ⟨rfl, ⟨1, Nat.one_ne_zero, rfl, rfl⟩, rfl, rfl, rfl, ⟨rfl, rfl, rfl⟩, ⟨rfl, rfl, rfl⟩, rfl, rfl, rfl, rfl,
    rfl, rfl, rfl, rfl⟩

end Io2Proofs.Executor
