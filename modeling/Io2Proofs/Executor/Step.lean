import Io2Proofs.Executor.State

/-!
# The loop of `run` as a step function

Each position of the loop of `run` (`Pc`) is one step: the `while` condition, the idle check,
one pass of the `'wait` loop, the snapshot of the ready set, one `notifying.pop()`, what follows
a poll, the submits, the completion drain, the timers and the deferred closes. While a task is
polled (`Pc.running`), the steps are the task's: any sequence of calls on its context,
ended by `Pending` or `Ready`. The kernel completes an entry in flight, and the clock moves,
between any two steps.

* `Exec.schedStep` — the scheduler's step at its position, given the kernel's answers;
* `Exec.userStep` — what the polled task does;
* `Exec.step` — one step of the whole system, `Action` saying whose;
* `Exec.returnRun` — what `run` returns once the loop has ended, and what the drop of its task
  table leaves behind;
* `Exec.Reachable` — the states a run reaches from an initial state, with the kernel's
  answers and the tasks' steps limited by an admissibility predicate (`Exec.Valid`: the answers
  the code is written for; `Exec.Lawful`: also the Safety contract of `queue_io`);
* `Exec.runActs` — a list of actions run in order, for the concrete traces.
-/

namespace Io2Proofs.Executor

variable {α : Type}

/-! ### The kernel's answers -/

/-- The kernel's answers a scheduler step may read: the `submit`s of a `try_submit_io` call on
the buffered ring and on the direct ring, numbered from the start of the call, and the
`submit_and_wait(0)` of the wait loop on the direct ring. -/
structure Oracle where
  io : Nat → Submitted
  dio : Nat → Submitted
  wait : Submitted

/-- Every answer is `Ok` with at least one entry taken, or `EBUSY`: any other error is a panic
the code asks for. -/
def Oracle.Valid (o : Oracle) : Prop :=
  (∀ i, (o.io i).OkOrBusy) ∧ (∀ i, (o.dio i).OkOrBusy) ∧ o.wait.OkOrBusy

/-! ### The scheduler's steps -/

namespace Exec

variable (s : Exec α)

/-- The loop moves to the position `pc`. -/
def goto (pc : Pc) : Exec α := { s with pc := pc }

/-- The `while` condition: the loop goes on while the root's output is missing, a close is
outstanding, or `FILES_TO_CLOSE` is not empty; otherwise the loop ends (`Pc.exited`) and `run`
returns `Ok(out.unwrap())` (`Exec.returnRun`). -/
def loopHead : Exec α :=
  s.goto (if s.out.isNone ∨ 0 < s.filesClosing ∨ s.filesToClose ≠ [] then .idle else .exited)

/-- What `run` leaves once its loop has ended: the value it returns, the tasks whose futures it
destroys, and `FILES_TO_CLOSE` after that. -/
structure Returned (α : Type) where
  value : α
  dropped : List Nat
  filesToClose : List Int

/-- `Ok(out.unwrap())` once the loop has ended, and the drop of `run`'s locals that follows, in
the reverse order of their declarations. Dropping `tasks` destroys the future of every task left
in the table, with the buffers its entries point at, before the rings that hold those entries are
dropped; each `File` such a future owns runs `File::drop`, which pushes its descriptor (`fds`, in
the order of the drops) onto `FILES_TO_CLOSE`, where no loop of this `run` reads it. `none` is
the panic of `unwrap`. -/
def returnRun (fds : List Int) : Option (Returned α) :=
  s.out.map fun v => ⟨v, s.tasks.keys, (fds.foldl File.drop s).filesToClose⟩

/-- The drops of `fds` push them onto `FILES_TO_CLOSE`, in order. -/
theorem filesToClose_foldl_drop (fds : List Int) :
    ∀ s : Exec α, (fds.foldl File.drop s).filesToClose = s.filesToClose ++ fds := by
  induction fds with
  | nil => exact fun s => (List.append_nil _).symm
  | cons fd fds ih => intro s; rw [List.foldl_cons, ih]; simp [File.drop]

/-- **What `run` returns**: the root's value, with every task left in the table dropped and the
descriptors of their files left in `FILES_TO_CLOSE`. -/
theorem returnRun_eq {v : α} (h : s.out = some v) (fds : List Int) :
    s.returnRun fds = some ⟨v, s.tasks.keys, s.filesToClose ++ fds⟩ := by
  rw [returnRun, h, Option.map_some', filesToClose_foldl_drop]

/-- "nothing to submit, nothing completed yet and there are no tasks to run". -/
def NothingToDo : Prop :=
  s.ring.sq = [] ∧ s.ring.cq = [] ∧ s.toNotify.keys = [] ∧ s.ioQueue = [] ∧
    s.filesToClose = [] ∧ s.dioRing.sq = [] ∧ s.dioRing.cq = [] ∧ s.dioQueue = []

instance : Decidable s.NothingToDo := inferInstanceAs (Decidable (_ ∧ _))

/-- The idle check: with nothing to do the loop waits, otherwise it drains the ready set. -/
def idleCheck : Exec α := s.goto (if s.NothingToDo then .wait else .drain)

/-- With direct I/O running, the wait loop's `dio_submitter.submit_and_wait(0)`: `EBUSY` is
ignored and any other error is a panic. -/
def waitSubmit (answer : Submitted) : Exec α :=
  if 0 < s.numDioRunning then
    match answer with
    | .ok n => { s with dioRing := s.dioRing.take n }
    | .err errno => if errno = ebusy then s else s.goto .panicked
  else s

/-- One pass of the `'wait` loop. While nothing has completed and no task is ready it fires
the timers and makes the direct ring's `submit_and_wait(0)` (`answer`); otherwise it leaves
the loop. `notify_timers` failing (`none`) is a panic. -/
def waitPass (answer : Submitted) : Exec α :=
  if s.ring.cq = [] ∧ s.dioRing.cq = [] ∧ s.toNotify.keys = [] then
    match notifyTimers s.now s.notifyWhen s.toNotify with
    | none => s.goto .panicked
    | some (nw, tn) => { s with notifyWhen := nw, toNotify := tn }.waitSubmit answer
  else s.goto .drain

/-- `let start = Instant::now()`, then `if !to_notify.is_empty()`: the ready set's keys are
appended to `notifying` and the ready set is cleared. -/
def drainStart : Exec α :=
  if s.toNotify.keys = [] then { s with start := s.now, pc := .submit }
  else
    { s with
      start := s.now
      notifying := s.notifying ++ s.toNotify.keys
      toNotify := VecMap.empty
      pc := .polling }

/-- The task `t` popped from `notifying`: a removed task is skipped (`None => continue`); the
close-file task's `async {}` is ready at its first poll and is dropped; any other task is
polled. The ghost `joinWaits` forgets what the task's previous poll waited on. -/
def pollTask (t : Nat) : Exec α :=
  match s.tasks.get t with
  | none => s
  | some task =>
    if task = .closeFile then { s with tasks := s.tasks.remove t, pc := .polled }
    else { s with pc := .running t, joinWaits := s.joinWaits.filter (·.1 ≠ t) }

/-- `while let Some(task_id) = notifying.pop()`: the last id is taken and its task polled. -/
def pollNext : Exec α :=
  match s.notifying.getLast? with
  | none => s.goto .submit
  | some t => { s with notifying := s.notifying.dropLast }.pollTask t

/-- `try_submit_io(&mut io_queue, &mut ring, false)` and then
`try_submit_io(&mut dio_queue, &mut dio_ring, forceDio)`; the loop goes on at `next`. A panic
of either call is the state `panicked`. -/
def submitBoth (o : Oracle) (forceDio : Bool) (next : Pc) : Exec α :=
  match trySubmitIo o.io s.ioQueue s.ring false, trySubmitIo o.dio s.dioQueue s.dioRing forceDio with
  | some (q, r, _), some (dq, dr, _) =>
    { s with ioQueue := q, ring := r, dioQueue := dq, dioRing := dr, pc := next }
  | _, _ => s.goto .panicked

/-- After a poll: `if start.elapsed() > preempt_duration { break }`; otherwise both rings get a
`try_submit_io` that does not force a submit, and the drain goes on. -/
def afterPoll (o : Oracle) : Exec α :=
  if s.preemptDuration < s.now - s.start then s.goto .submit else s.submitBoth o false .polling

/-- The `for cqe in cq.chain(dio_cq)` loop. A completion of the reserved close record
decrements `files_closing` (`checked_sub(1).unwrap()`); any other posts its result under its
I/O id and readies the task its record names (`io.get(io_id).unwrap()`). `none` is a panic. -/
def drainCqes : List Cqe → Exec α → Option (Exec α)
  | [], s => some s
  | cqe :: rest, s =>
    if cqe.userData = s.closeFileIoId then
      if s.filesClosing = 0 then none
      else drainCqes rest { s with filesClosing := s.filesClosing - 1 }
    else
      match s.io.get cqe.userData with
      | none => none
      | some t =>
        drainCqes rest
          { s with
            ioResults := s.ioResults.insert cqe.userData cqe.result
            toNotify := s.toNotify.insert t () }

/-- The drain changes the result table, the ready set and `files_closing` only, and readies
only tasks that were ready or that the record of a drained completion names. -/
theorem drainCqes_frame : ∀ {l : List Cqe} {s s' : Exec α}, drainCqes l s = some s' →
    s' = { s with ioResults := s'.ioResults, toNotify := s'.toNotify, filesClosing := s'.filesClosing } ∧
    ∀ t ∈ s'.toNotify.keys, t ∈ s.toNotify.keys ∨
      ∃ c ∈ l, c.userData ≠ s.closeFileIoId ∧ s.io.get c.userData = some t
  | [], s, s', h => by cases h; exact ⟨rfl, fun t ht => .inl ht⟩
  | c :: rest, s, s', h => by
    simp only [drainCqes] at h
    split at h
    · split at h
      · cases h
      · obtain ⟨e, hk⟩ := drainCqes_frame h
        exact ⟨e, fun t ht => (hk t ht).imp_right fun ⟨c', hc', hne, hget⟩ =>
          ⟨c', List.mem_cons_of_mem _ hc', hne, hget⟩⟩
    · rename_i hclose
      split at h
      · cases h
      · rename_i t' hget
        obtain ⟨e, hk⟩ := drainCqes_frame h
        refine ⟨e, fun t ht => ?_⟩
        rcases hk t ht with h' | ⟨c', hc', hne, hget'⟩
        · rcases (VecMap.mem_keys_insert _ _ _ _).mp h' with rfl | h''
          · exact .inr ⟨c, List.mem_cons_self _ _, hclose, hget⟩
          · exact .inl h''
        · exact .inr ⟨c', List.mem_cons_of_mem _ hc', hne, hget'⟩

/-- The completion drain: `num_dio_running.checked_sub(dio_cq.len()).unwrap()`, then every
completion of the buffered ring and then of the direct ring. -/
def completeIo : Exec α :=
  if s.numDioRunning < s.dioRing.cq.length then s.goto .panicked
  else
    match drainCqes (s.ring.cq ++ s.dioRing.cq)
        { s with
          numDioRunning := s.numDioRunning - s.dioRing.cq.length
          ring := s.ring.clearCq
          dioRing := s.dioRing.clearCq } with
    | none => s.goto .panicked
    | some s' => s'.goto .timers

/-- `notify_timers(&mut notify_when, &mut to_notify)` after the drain. -/
def fireTimers : Exec α :=
  match notifyTimers s.now s.notifyWhen s.toNotify with
  | none => s.goto .panicked
  | some (nw, tn) => { s with notifyWhen := nw, toNotify := tn, pc := .closes }

/-- The `FILES_TO_CLOSE` loop: every descriptor is counted in `files_closing` and gets a close
entry on the buffered queue, tagged with the reserved I/O id; the list is cleared. -/
def closeFiles : Exec α :=
  { s with
    filesClosing := s.filesClosing + s.filesToClose.length
    ioQueue := s.ioQueue ++ s.filesToClose.map fun fd => (Opcode.close fd).build.withUserData s.closeFileIoId
    filesToClose := []
    pc := .head }

/-- **The scheduler's step** at its position; `none` while a task is polled, and once the loop
has ended or panicked. -/
def schedStep (o : Oracle) : Option (Exec α) :=
  match s.pc with
  | .head => some s.loopHead
  | .idle => some s.idleCheck
  | .wait => some (s.waitPass o.wait)
  | .drain => some s.drainStart
  | .polling => some s.pollNext
  | .running _ => none
  | .polled => some (s.afterPoll o)
  | .submit => some (s.submitBoth o true .complete)
  | .complete => some s.completeIo
  | .timers => some s.fireTimers
  | .closes => some s.closeFiles
  | .exited => none
  | .panicked => none

end Exec

/-! ### The polled task's steps -/

/-- What the future of the polled task can do next: a call on its context, a poll of a join
handle, dropping a file, or returning. `queueIo` and `spawn` carry the key the slab hands out. -/
inductive Op (α : Type)
  | queueIo (entry : Entry) (directIo : Bool) (ioId : Nat)
  | takeIoResult (ioId : Nat)
  | notifyWhen (when : Nat)
  | spawn (child : Nat)
  | yieldIfNeeded
  | pollJoin (out : Nat)
  | dropFile (fd : Int)
  | pending
  | ready (v : α)

namespace Exec

variable (s : Exec α)

/-- The task `t` polls the join handle of the cell `out`; when the poll is `Pending` the ghost
`joinWaits` records that the task waits on the cell. -/
def pollJoin (t out : Nat) : Exec α :=
  match JoinHandle.poll s out with
  | (some _, s') => s'
  | (none, s') => { s' with joinWaits := s'.joinWaits ++ [(t, out)] }

theorem pollJoin_eq (t out : Nat) : s.pollJoin t out =
    match (s.slots.getD out .running).get with
    | some v => { s with slots := s.slots.set out (.taken v) }
    | none => { s with joinWaits := s.joinWaits ++ [(t, out)] } := by
  cases h : (s.slots.getD out .running).get <;> simp only [pollJoin, JoinHandle.poll, h]

/-- **A step of the polled task `t`.** The slabs hand out free keys only, and a join handle
names a cell that exists. -/
def userStep (t : Nat) : Op α → Option (Exec α)
  | .queueIo entry directIo ioId =>
    if ioId ∈ s.io then none else some (CurrentTaskContext.queueIo s t entry directIo ioId)
  | .takeIoResult ioId => some (CurrentTaskContext.takeIoResult s ioId).2
  | .notifyWhen when => some (CurrentTaskContext.notifyWhen s t when)
  | .spawn child => if child ∈ s.tasks then none else some (CurrentTaskContext.spawn s t child).2
  | .yieldIfNeeded => some (CurrentTaskContext.yieldIfNeeded s t).2
  | .pollJoin out => if out < s.slots.length then some (s.pollJoin t out) else none
  | .dropFile fd => some (File.drop s fd)
  | .pending => some (s.goto .polled)
  | .ready v => some ((s.finishTask t v).goto .polled)

/-- The kernel completes the `i`-th entry in flight of the buffered ring (`dio = false`) or of
the direct ring, with the result `res`. -/
def kernelComplete (dio : Bool) (i : Nat) (res : Int) : Option (Exec α) :=
  if dio then
    if i < s.dioRing.inflight.length then some { s with dioRing := s.dioRing.complete i res } else none
  else if i < s.ring.inflight.length then some { s with ring := s.ring.complete i res } else none

end Exec

/-! ### Runs -/

/-- Who moves: the scheduler (with the kernel's answers), the polled task, the kernel
completing an entry in flight, or the clock. -/
inductive Action (α : Type)
  | sched (o : Oracle)
  | user (op : Op α)
  | kernel (dio : Bool) (i : Nat) (res : Int)
  | tick (d : Nat)

/-- Whether the action is the polled task returning `Ready`. -/
def Action.isReady : Action α → Bool
  | .user (.ready _) => true
  | _ => false

namespace Exec

variable (s : Exec α)

/-- **One step of the executor.** -/
def step : Action α → Option (Exec α)
  | .sched o => s.schedStep o
  | .user op => match s.pc with
    | .running t => s.userStep t op
    | _ => none
  | .kernel dio i res => s.kernelComplete dio i res
  | .tick d => some { s with now := s.now + d }

/-- The kernel's answers are the ones the code is written for, whatever the state. -/
def Valid (_ : Exec α) : Action α → Prop
  | .sched o => o.Valid
  | _ => True

/-- The Safety contract of `queue_io`: a task does not return `Ready` while an I/O record
names it. -/
def KeepsContract (a : Action α) : Prop := a.isReady → ∀ p ∈ s.io.entries, s.pc ≠ .running p.2

instance (a : Action α) : Decidable (s.KeepsContract a) := inferInstanceAs (Decidable (_ → _))

/-- Valid answers, and tasks that keep the contract of `queue_io`. -/
def Lawful (a : Action α) : Prop := s.Valid a ∧ s.KeepsContract a

/-- **The reachable states**: from an initial state, steps whose action `Adm` admits. -/
inductive Reachable (Adm : Exec α → Action α → Prop) : Exec α → Prop
  | init {s : Exec α} : s.Initial → Reachable Adm s
  | step {s s' : Exec α} {a : Action α} :
      Reachable Adm s → Adm s a → s.step a = some s' → Reachable Adm s'

/-- What holds initially and is kept by every admitted step holds in every reachable state. -/
theorem Reachable.induction {Adm : Exec α → Action α → Prop} {P : Exec α → Prop}
    (init : ∀ s : Exec α, s.Initial → P s)
    (step : ∀ (s s' : Exec α) (a : Action α), Reachable Adm s → P s → Adm s a →
      s.step a = some s' → P s')
    {s : Exec α} (hs : Reachable Adm s) : P s := by
  induction hs with
  | init h => exact init _ h
  | step hr ha he ih => exact step _ _ _ hr ih ha he

/-- A stronger admissibility reaches fewer states. -/
theorem Reachable.mono {A B : Exec α → Action α → Prop} (hAB : ∀ s a, A s a → B s a) {s : Exec α}
    (hs : Reachable A s) : Reachable B s := by
  induction hs with
  | init h => exact .init h
  | step _ ha he ih => exact .step ih (hAB _ _ ha) he

theorem Reachable.valid {s : Exec α} (hs : Reachable Lawful s) : Reachable Valid s :=
  hs.mono fun _ _ h => h.1

/-- One step from `s` to `s'` by an action `Adm` admits; the runs from a state are
`Relation.ReflTransGen (Moves Adm)`. -/
def Moves (Adm : Exec α → Action α → Prop) (s s' : Exec α) : Prop := ∃ a, Adm s a ∧ s.step a = some s'

/-- A run from a reachable state stays in the reachable states. -/
theorem Reachable.of_moves {Adm : Exec α → Action α → Prop} {s s' : Exec α} (hs : Reachable Adm s)
    (hr : Relation.ReflTransGen (Moves Adm) s s') : Reachable Adm s' := by
  induction hr with
  | refl => exact hs
  | tail _ hm ih => obtain ⟨a, ha, he⟩ := hm; exact .step ih ha he

/-- The actions of a list, in order, each taken only where `ok` admits it. -/
def runActs (ok : Exec α → Action α → Prop) [∀ s a, Decidable (ok s a)] :
    List (Action α) → Exec α → Option (Exec α)
  | [], s => some s
  | a :: rest, s => if ok s a then (s.step a).bind (runActs ok rest) else none

section RunActs

variable {Adm ok : Exec α → Action α → Prop} [∀ s a, Decidable (ok s a)]

theorem runActs_reachable :
    ∀ {acts : List (Action α)} {s s' : Exec α}, Reachable Adm s →
      (∀ s₀ a, a ∈ acts → ok s₀ a → Adm s₀ a) → runActs ok acts s = some s' → Reachable Adm s'
  | [], s, s', hs, _, h => by cases h; exact hs
  | a :: rest, s, s', hs, hadm, h => by
    simp only [runActs] at h
    split at h
    · rename_i hok
      cases ha : s.step a with
      | none => simp [ha] at h
      | some s₁ =>
        simp only [ha, Option.bind_some] at h
        exact runActs_reachable (.step hs (hadm _ _ (List.mem_cons_self _ _) hok) ha)
          (fun s₀ b hb => hadm s₀ b (List.mem_cons_of_mem _ hb)) h
    · cases h

end RunActs

/-! ### Schedules -/

/-- The kernel's answers of the concrete schedules: every `submit` takes one entry. -/
def okAll : Oracle := ⟨fun _ => .ok 1, fun _ => .ok 1, .ok 1⟩

theorem okAll_valid : okAll.Valid := ⟨fun _ => Nat.one_pos, fun _ => Nat.one_pos, Nat.one_pos⟩

/-- A move of a concrete schedule: the scheduler's step with the answers `okAll`, the polled
task's step, the kernel completing an entry in flight, or the clock. -/
inductive Move (α : Type)
  | sched
  | user (op : Op α)
  | kernel (dio : Bool) (i : Nat) (res : Int)
  | tick (d : Nat)

/-- The action of a move. -/
def Move.act : Move α → Action α
  | .sched => .sched okAll
  | .user op => .user op
  | .kernel dio i res => .kernel dio i res
  | .tick d => .tick d

theorem Move.valid (m : Move α) (s : Exec α) : s.Valid m.act := by
  cases m
  · exact okAll_valid
  all_goals trivial

/-- A move of a schedule taken where the polled task keeps the contract of `queue_io` is
lawful. -/
theorem Move.lawful {ms : List (Move α)} (s : Exec α) {a : Action α} (ha : a ∈ ms.map Move.act)
    (hk : s.KeepsContract a) : s.Lawful a := by
  obtain ⟨m, -, rfl⟩ := List.mem_map.mp ha
  exact ⟨m.valid s, hk⟩

/-- The state a schedule run from `s` ends in (`s` itself if a move is not possible). -/
def afterSchedule (ms : List (Move α)) (s : Exec α) : Exec α :=
  (runActs KeepsContract (ms.map Move.act) s).getD s

theorem reachable_afterSchedule {ms : List (Move α)} {s : Exec α} (hs : s.Initial)
    (h : (runActs KeepsContract (ms.map Move.act) s).isSome) : Reachable Lawful (afterSchedule ms s) := by
  obtain ⟨s', hs'⟩ := Option.isSome_iff_exists.mp h
  rw [afterSchedule, hs', Option.getD_some]
  exact runActs_reachable (.init hs) Move.lawful hs'

end Exec

/-! ### Where each step takes the loop -/

/-- The moves of the loop of `run` from one position to another, besides staying where it is and
panicking. -/
def Pc.Next : Pc → Pc → Prop
  | .head, p => p = .idle ∨ p = .exited
  | .idle, p => p = .wait ∨ p = .drain
  | .wait, p => p = .drain
  | .drain, p => p = .submit ∨ p = .polling
  | .polling, p => p = .submit ∨ p = .polled ∨ ∃ t, p = .running t
  | .running _, p => p = .polled
  | .polled, p => p = .submit ∨ p = .polling
  | .submit, p => p = .complete
  | .complete, p => p = .timers
  | .timers, p => p = .closes
  | .closes, p => p = .head
  | .exited, _ => False
  | .panicked, _ => False

namespace Exec

variable (s : Exec α)

theorem waitSubmit_pc (answer : Submitted) :
    (s.waitSubmit answer).pc = s.pc ∨ (s.waitSubmit answer).pc = .panicked := by
  unfold waitSubmit; split
  · split
    · exact .inl rfl
    · split <;> simp [goto]
  · exact .inl rfl

theorem waitPass_pc (answer : Submitted) :
    (s.waitPass answer).pc = s.pc ∨ (s.waitPass answer).pc = .drain ∨
      (s.waitPass answer).pc = .panicked := by
  unfold waitPass; split
  · split
    · simp [goto]
    · rcases waitSubmit_pc { s with notifyWhen := _, toNotify := _ } answer with h | h
      · exact .inl h
      · exact .inr (.inr h)
  · simp [goto]

theorem pollNext_pc : s.pollNext.pc = s.pc ∨ s.pollNext.pc = .submit ∨ s.pollNext.pc = .polled ∨
    ∃ t, s.pollNext.pc = .running t := by
  unfold pollNext pollTask; split
  · simp [goto]
  · split
    · exact .inl rfl
    · split <;> simp

theorem submitBoth_pc (o : Oracle) (force : Bool) (next : Pc) :
    (s.submitBoth o force next).pc = next ∨ (s.submitBoth o force next).pc = .panicked := by
  unfold submitBoth; split <;> simp [goto]

theorem completeIo_pc : s.completeIo.pc = .timers ∨ s.completeIo.pc = .panicked := by
  unfold completeIo; split
  · simp [goto]
  · split <;> simp [goto]

theorem fireTimers_pc : s.fireTimers.pc = .closes ∨ s.fireTimers.pc = .panicked := by
  unfold fireTimers; split <;> simp [goto]

variable {s}

theorem userStep_pc {t : Nat} {op : Op α} {s' : Exec α} (hs : s.userStep t op = some s') :
    s'.pc = s.pc ∨ s'.pc = .polled := by
  cases op with
  | queueIo entry directIo ioId =>
    simp only [userStep] at hs
    split at hs
    · cases hs
    · cases hs; unfold CurrentTaskContext.queueIo; split <;> exact .inl rfl
  | takeIoResult ioId =>
    cases hs; unfold CurrentTaskContext.takeIoResult; split <;> exact .inl rfl
  | spawn child =>
    simp only [userStep] at hs
    split at hs
    · cases hs
    · cases hs; exact .inl rfl
  | yieldIfNeeded => cases hs; unfold CurrentTaskContext.yieldIfNeeded; split <;> exact .inl rfl
  | pollJoin out =>
    simp only [userStep] at hs
    split at hs
    · cases hs; rw [pollJoin_eq]; split <;> exact .inl rfl
    · cases hs
  | ready v => cases hs; exact .inr rfl
  | _ => cases hs; first | exact .inl rfl | exact .inr rfl

/-- **The loop's control flow.** A step leaves the loop where it was, moves it along an edge of
`Pc.Next`, or panics. -/
theorem step_pc {a : Action α} {s' : Exec α} (hs : s.step a = some s') :
    s'.pc = s.pc ∨ s.pc.Next s'.pc ∨ s'.pc = .panicked := by
  cases a with
  | sched o =>
    simp only [step, schedStep] at hs
    split at hs <;> cases hs <;> rename_i hpc <;> simp only [hpc, Pc.Next]
    · unfold loopHead goto; split <;> simp
    · unfold idleCheck goto; split <;> simp
    · rcases waitPass_pc s o.wait with h | h | h <;> simp [h, hpc]
    · unfold drainStart; split <;> simp
    · rcases pollNext_pc s with h | h | h | ⟨t, h⟩ <;> simp [h, hpc]
    · unfold afterPoll; split
      · simp [goto]
      · rcases submitBoth_pc s o false .polling with h | h <;> simp [h]
    · rcases submitBoth_pc s o true .complete with h | h <;> simp [h]
    · rcases completeIo_pc s with h | h <;> simp [h]
    · rcases fireTimers_pc s with h | h <;> simp [h]
    · simp [closeFiles]
  | user op =>
    simp only [step] at hs
    split at hs
    · rename_i t hpc
      rcases userStep_pc hs with h | h
      · exact .inl h
      · exact .inr (.inl (by simp [hpc, h, Pc.Next]))
    · cases hs
  | kernel dio i res =>
    simp only [step, kernelComplete] at hs
    split at hs <;> split at hs <;> cases hs <;> exact .inl rfl
  | tick d => cases hs; exact .inl rfl

/-! ### What the scheduler's steps keep -/

/-- What a scheduler step keeps: the I/O records, the reserved ids, the join cells and `out`;
and the task table, unless the step drops a close-file task it popped. -/
structure SchedFrame (s s' : Exec α) : Prop where
  io : s'.io = s.io
  closeFileIoId : s'.closeFileIoId = s.closeFileIoId
  closeFileTaskId : s'.closeFileTaskId = s.closeFileTaskId
  slots : s'.slots = s.slots
  out : s'.out = s.out
  tasks : s'.tasks = s.tasks ∨ ∃ t, s.tasks.get t = some .closeFile ∧ s'.tasks = s.tasks.remove t

theorem SchedFrame.of_tasks {s' : Exec α} (hio : s'.io = s.io)
    (hc : s'.closeFileIoId = s.closeFileIoId ∧ s'.closeFileTaskId = s.closeFileTaskId)
    (hso : s'.slots = s.slots ∧ s'.out = s.out) (ht : s'.tasks = s.tasks) : SchedFrame s s' :=
  ⟨hio, hc.1, hc.2, hso.1, hso.2, .inl ht⟩

theorem SchedFrame.rfl' {s' : Exec α}
    (h : s'.io = s.io ∧ s'.closeFileIoId = s.closeFileIoId ∧ s'.closeFileTaskId = s.closeFileTaskId ∧
      s'.slots = s.slots ∧ s'.out = s.out ∧ s'.tasks = s.tasks) : SchedFrame s s' :=
  ⟨h.1, h.2.1, h.2.2.1, h.2.2.2.1, h.2.2.2.2.1, .inl h.2.2.2.2.2⟩

/-- **The scheduler's steps keep its frame.** -/
theorem schedStep_frame {o : Oracle} {s' : Exec α} (hs : s.schedStep o = some s') : SchedFrame s s' := by
  simp only [schedStep] at hs
  split at hs <;> cases hs
  · exact .rfl' ⟨rfl, rfl, rfl, rfl, rfl, rfl⟩
  · exact .rfl' ⟨rfl, rfl, rfl, rfl, rfl, rfl⟩
  · unfold waitPass waitSubmit; split
    · split
      · exact .rfl' ⟨rfl, rfl, rfl, rfl, rfl, rfl⟩
      · split
        · split
          · exact .rfl' ⟨rfl, rfl, rfl, rfl, rfl, rfl⟩
          · split <;> exact .rfl' ⟨rfl, rfl, rfl, rfl, rfl, rfl⟩
        · exact .rfl' ⟨rfl, rfl, rfl, rfl, rfl, rfl⟩
    · exact .rfl' ⟨rfl, rfl, rfl, rfl, rfl, rfl⟩
  · unfold drainStart; split <;> exact .rfl' ⟨rfl, rfl, rfl, rfl, rfl, rfl⟩
  · unfold pollNext pollTask; split
    · exact .rfl' ⟨rfl, rfl, rfl, rfl, rfl, rfl⟩
    · split
      · exact .rfl' ⟨rfl, rfl, rfl, rfl, rfl, rfl⟩
      · rename_i task hget
        split
        · subst task; exact ⟨rfl, rfl, rfl, rfl, rfl, .inr ⟨_, hget, rfl⟩⟩
        · exact .rfl' ⟨rfl, rfl, rfl, rfl, rfl, rfl⟩
  · unfold afterPoll submitBoth; split
    · exact .rfl' ⟨rfl, rfl, rfl, rfl, rfl, rfl⟩
    · split <;> exact .rfl' ⟨rfl, rfl, rfl, rfl, rfl, rfl⟩
  · unfold submitBoth; split <;> exact .rfl' ⟨rfl, rfl, rfl, rfl, rfl, rfl⟩
  · unfold completeIo; split
    · exact .rfl' ⟨rfl, rfl, rfl, rfl, rfl, rfl⟩
    · split
      · exact .rfl' ⟨rfl, rfl, rfl, rfl, rfl, rfl⟩
      · rename_i s'' hdrain
        rw [(drainCqes_frame hdrain).1]
        exact .rfl' ⟨rfl, rfl, rfl, rfl, rfl, rfl⟩
  · unfold fireTimers; split <;> exact .rfl' ⟨rfl, rfl, rfl, rfl, rfl, rfl⟩
  · exact .rfl' ⟨rfl, rfl, rfl, rfl, rfl, rfl⟩

end Exec

/-! ### What the polled task's calls keep -/

/-- The calls of the polled task that write neither the I/O bookkeeping, the deadlines nor
`FILES_TO_CLOSE`: every call but `queue_io`, `take_io_result`, `notify_when` and `File::drop`. -/
def Op.Quiet : Op α → Prop
  | .queueIo _ _ _ | .takeIoResult _ | .notifyWhen _ | .dropFile _ => False
  | _ => True

namespace Exec

variable {s s' : Exec α}

/-- What every call of the polled task keeps: the rings, `notifying`, `files_closing` and the
reserved I/O id. -/
structure UserFrame (s s' : Exec α) : Prop where
  ring : s'.ring = s.ring
  dioRing : s'.dioRing = s.dioRing
  notifying : s'.notifying = s.notifying
  filesClosing : s'.filesClosing = s.filesClosing
  closeFileIoId : s'.closeFileIoId = s.closeFileIoId

/-- What a quiet call keeps besides: the I/O records and results, both queues,
`num_dio_running`, the deadlines and `FILES_TO_CLOSE`. -/
structure QuietFrame (s s' : Exec α) extends UserFrame s s' : Prop where
  io : s'.io = s.io
  ioQueue : s'.ioQueue = s.ioQueue
  dioQueue : s'.dioQueue = s.dioQueue
  numDioRunning : s'.numDioRunning = s.numDioRunning
  ioResults : s'.ioResults = s.ioResults
  notifyWhen : s'.notifyWhen = s.notifyWhen
  filesToClose : s'.filesToClose = s.filesToClose

/-- **A quiet call keeps the I/O bookkeeping**: `spawn`, `yield_if_needed`, a poll of a join
handle and the future's `Pending` or `Ready` write only the task table, the join cells, the
ready set, `out` and the loop's position. -/
theorem userStep_quiet {t : Nat} {op : Op α} (hs : s.userStep t op = some s') (hq : op.Quiet) :
    QuietFrame s s' := by
  cases op <;> simp only [Op.Quiet] at hq <;> simp only [userStep] at hs <;> (try split at hs) <;>
    cases hs
  all_goals first
    | exact ⟨⟨rfl, rfl, rfl, rfl, rfl⟩, rfl, rfl, rfl, rfl, rfl, rfl, rfl⟩
    | (unfold CurrentTaskContext.yieldIfNeeded; split <;>
        exact ⟨⟨rfl, rfl, rfl, rfl, rfl⟩, rfl, rfl, rfl, rfl, rfl, rfl, rfl⟩)
    | (rw [pollJoin_eq]; split <;> exact ⟨⟨rfl, rfl, rfl, rfl, rfl⟩, rfl, rfl, rfl, rfl, rfl, rfl, rfl⟩)
    | (unfold finishTask storeOutput; split <;>
        exact ⟨⟨rfl, rfl, rfl, rfl, rfl⟩, rfl, rfl, rfl, rfl, rfl, rfl, rfl⟩)

/-- **No call of the polled task touches the rings, `notifying`, `files_closing` or the
reserved I/O id.** -/
theorem userStep_keeps {t : Nat} {op : Op α} (hs : s.userStep t op = some s') : UserFrame s s' := by
  cases op
  case queueIo entry d k =>
    simp only [userStep] at hs
    split at hs
    · cases hs
    · cases hs; unfold CurrentTaskContext.queueIo; split <;> exact ⟨rfl, rfl, rfl, rfl, rfl⟩
  case takeIoResult k =>
    cases hs; unfold CurrentTaskContext.takeIoResult; split <;> exact ⟨rfl, rfl, rfl, rfl, rfl⟩
  case notifyWhen w => cases hs; exact ⟨rfl, rfl, rfl, rfl, rfl⟩
  case dropFile fd => cases hs; exact ⟨rfl, rfl, rfl, rfl, rfl⟩
  all_goals exact (userStep_quiet hs trivial).toUserFrame

end Exec

end Io2Proofs.Executor
