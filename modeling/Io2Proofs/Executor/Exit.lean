import Io2Proofs.Executor.IoRecords

/-!
# What is left when the loop ends

The loop of `run` ends once the root's output is in `out`, no close is outstanding and
`FILES_TO_CLOSE` is empty. It does not wait for the children `spawn` made: a child that has
not returned stays in the task table, with its I/O records and whatever it has in flight.

* `Exec.loop_exit_state` — when the loop ends, in a run whose tasks keep the Safety contract of
  `queue_io`: nothing is left to close, the close-file task is still in the table, every other
  task there is a child, and every I/O record other than the reserved one belongs to one of those
  children; `run` returns the root's value (`out.unwrap()` does not panic), drops those
  children, and leaves the descriptors of their files in `FILES_TO_CLOSE`, unclosed;
* `Exec.loop_exits_with_children_left` — a run in which the root spawns children, one of them
  queues a read that goes in flight, and the root returns: the loop ends with the children in the
  table, the read in flight, a child in the ready set and a deadline registered, and `run`
  returns and drops the children, the reading one with its buffer, while the kernel holds the
  read;
* `Exec.root_output_written_once` — the value `run` returns is the root's: only the root's
  `Ready(v)` fills `out`, and once filled it keeps its value along every run.
-/

namespace Io2Proofs.Executor

namespace Exec

variable {α : Type} {s : Exec α}

/-- **The state the loop ends in, and what `run` returns.** In every lawful run, when the loop
ends: `FILES_TO_CLOSE` is empty and `files_closing` is zero; the close-file task is in the task
table, and every other task there is a spawned child that has not returned; every I/O record
other than the reserved close record names one of those children. `run` then returns
`Ok(v)` with `v` the root's value (`out.unwrap()` does not panic), drops every task left in the
table, and leaves in `FILES_TO_CLOSE` exactly the descriptors of the files their futures owned:
none of them is closed by this `run`. -/
theorem loop_exit_state (hs : Reachable Lawful s) (hx : s.pc = .exited) (fds : List Int) :
    s.filesToClose = [] ∧ s.filesClosing = 0 ∧
    s.tasks.get s.closeFileTaskId = some .closeFile ∧
    (∀ k task, s.tasks.get k = some task → k = s.closeFileTaskId ∨ ∃ c i, task = .spawned c i) ∧
    (∀ k t, s.io.get k = some t → k ≠ s.closeFileIoId → ∃ c i, s.tasks.get t = some (.spawned c i)) ∧
    ∃ v, s.out = some v ∧ s.returnRun fds = some ⟨v, s.tasks.keys, fds⟩ := by
  have ht := hs.taskInv
  obtain ⟨hout, hfc, hftc⟩ := hs.exitInv hx
  have task_cases : ∀ k task, s.tasks.get k = some task →
      k = s.closeFileTaskId ∨ ∃ c i, task = .spawned c i := by
    intro k task hk
    cases task with
    | root => simp [ht.root_out k hk] at hout
    | closeFile => exact .inl (ht.closeTask_unique k hk)
    | spawned c i => exact .inr ⟨c, i, rfl⟩
  obtain ⟨v, hv⟩ := Option.isSome_iff_exists.mp hout
  refine ⟨hftc, hfc, ht.closeTask, task_cases, fun k t hk hne => ?_,
    v, hv, by rw [returnRun_eq _ hv, hftc, List.nil_append]⟩
  obtain ⟨task, htask⟩ := Option.isSome_iff_exists.mp (Slab.get_isSome.mpr (hs.ownersLive k t hk hne))
  rcases task_cases t task htask with e | ⟨c, i, rfl⟩
  · exact absurd e (ht.close_no_io k t hk hne)
  · exact ⟨c, i, htask⟩

/-- The root makes itself ready again (`yield_if_needed` past the budget), spawns the child `2`
and returns `Pending`. The next iteration polls `2`, which queues a read of `4096` bytes from the
descriptor `3` under the I/O id `1`, registers a deadline at `100` and returns `Pending`; the
read is submitted and goes in flight, and the kernel never completes it (`3` is an empty pipe).
Then the root spawns the child `3` and returns `Ready(0)`, and the loop runs to its end. -/
def exitSchedule : List (Move Nat) :=
  [.sched, .sched, .sched, .sched,
    .tick 11, .user .yieldIfNeeded, .user (.spawn 2), .user .pending] ++ List.replicate 9 .sched ++
  [.user (.queueIo (Opcode.read 3 4096 0).build false 1), .user (.notifyWhen 100), .user .pending,
    .sched, .sched, .user (.spawn 3), .user (.ready 0)] ++ List.replicate 7 .sched

/-- The state the loop ends in after `exitSchedule`. -/
def childrenLeftState : Exec Nat := afterSchedule exitSchedule (Exec.boot Nat)

/-- The loop ends with the children `2` and `3` in the table and the record `1` naming `2`;
`run` returns `Ok(0)`, drops both, and leaves the descriptor `5` of a file one of them owned in
`FILES_TO_CLOSE`. -/
theorem loop_exit_state_children_left :
    Reachable Lawful childrenLeftState ∧ childrenLeftState.pc = .exited ∧
    childrenLeftState.tasks.keys = [0, 2, 3] ∧ childrenLeftState.io.entries = [(0, 0), (1, 2)] ∧
    (childrenLeftState.filesToClose = [] ∧ childrenLeftState.filesClosing = 0 ∧
      childrenLeftState.tasks.get childrenLeftState.closeFileTaskId = some .closeFile ∧
      (∀ k task, childrenLeftState.tasks.get k = some task →
        k = childrenLeftState.closeFileTaskId ∨ ∃ c i, task = .spawned c i) ∧
      (∀ k t, childrenLeftState.io.get k = some t → k ≠ childrenLeftState.closeFileIoId →
        ∃ c i, childrenLeftState.tasks.get t = some (.spawned c i)) ∧
      ∃ v, childrenLeftState.out = some v ∧
        childrenLeftState.returnRun [5] = some ⟨v, childrenLeftState.tasks.keys, [5]⟩) :=
  have hs : Reachable Lawful childrenLeftState := reachable_afterSchedule (Exec.boot_initial Nat) (by decide)
  have hx : childrenLeftState.pc = .exited := by decide
  ⟨hs, hx, by decide, by decide, loop_exit_state hs hx [5]⟩

/-- **`run` returns with a read in flight.** In a lawful run the loop ends with the children `2`
and `3` in the task table, the I/O record `1` of `2` with its read in flight on the buffered
ring, `3` in the ready set and the deadline of `2` registered. `run` then returns `Ok(0)` and
drops the futures of `2` and `3`, and with `2` the buffer the kernel is still to write the read
into. -/
theorem loop_exits_with_children_left :
    Reachable Lawful childrenLeftState ∧ childrenLeftState.pc = .exited ∧
      childrenLeftState.tasks.keys = [0, 2, 3] ∧ childrenLeftState.io.get 1 = some 2 ∧
      childrenLeftState.ring.inflight.map Entry.userData = [1] ∧
      childrenLeftState.toNotify.keys = [3] ∧ childrenLeftState.notifyWhen.taskId = [2] ∧
      ∀ fds, childrenLeftState.returnRun fds = some ⟨0, [0, 2, 3], fds⟩ :=
  ⟨reachable_afterSchedule (Exec.boot_initial Nat) (by decide), by decide, by decide, by decide,
    by decide, by decide, by decide, fun fds => by rw [returnRun_eq _ (v := 0) rfl]; rfl⟩

/-! ### The value `run` returns -/

/-- What a step does to `out`: it keeps it, or it is the root's `Ready(v)`, which writes `v`. -/
theorem step_out {a : Action α} {s' : Exec α} (he : s.step a = some s') :
    s'.out = s.out ∨ ∃ t v, s.pc = .running t ∧ s.tasks.get t = some .root ∧
      a = .user (.ready v) ∧ s'.out = some v := by
  cases a with
  | sched o => exact .inl (schedStep_frame he).out
  | user op =>
    simp only [step] at he
    split at he
    · rename_i t hpc
      cases op with
      | queueIo entry directIo ioId =>
        simp only [userStep] at he
        split at he
        · cases he
        · cases he; unfold CurrentTaskContext.queueIo; exact .inl (by split <;> rfl)
      | takeIoResult ioId =>
        cases he; unfold CurrentTaskContext.takeIoResult; exact .inl (by split <;> rfl)
      | spawn child =>
        simp only [userStep] at he
        split at he
        · cases he
        · cases he; exact .inl rfl
      | yieldIfNeeded =>
        cases he; unfold CurrentTaskContext.yieldIfNeeded; exact .inl (by split <;> rfl)
      | pollJoin out =>
        simp only [userStep] at he
        split at he
        · cases he; rw [pollJoin_eq]; exact .inl (by split <;> rfl)
        · cases he
      | ready v =>
        cases he
        cases hget : s.tasks.get t with
        | none => exact .inl (by simp only [finishTask, goto, storeOutput, hget])
        | some task =>
          cases task with
          | root => exact .inr ⟨t, v, hpc, hget, rfl, by simp only [finishTask, goto, storeOutput, hget]⟩
          | closeFile => exact .inl (by simp only [finishTask, goto, storeOutput, hget])
          | spawned c i => exact .inl (by simp only [finishTask, goto, storeOutput, hget]; rfl)
      | _ => cases he; exact .inl rfl
    · cases he
  | kernel dio i res =>
    simp only [step, kernelComplete] at he
    split at he <;> split at he <;> cases he <;> exact .inl rfl
  | tick d => cases he; exact .inl rfl

/-- A step from a state with `out` filled keeps it. -/
theorem TaskInv.step_out_some (h : TaskInv s) {a : Action α} {s' : Exec α} (he : s.step a = some s')
    {v : α} (hv : s.out = some v) : s'.out = some v := by
  rcases step_out he with e | ⟨t, _, -, hroot, -, -⟩
  · rw [e, hv]
  · simp [h.root_out t hroot] at hv

/-- **`run` returns the root's value, written once.** From every reachable state: a step that
fills `out` is the root task's future returning `Ready(v)`, and writes `v`; and along every run,
`out` once filled keeps its value, so `Ok(out.unwrap())` is the value the root returned. -/
theorem root_output_written_once {Adm : Exec α → Action α → Prop} (hs : Reachable Adm s) :
    (∀ a s' v, s.step a = some s' → s.out = none → s'.out = some v →
      ∃ t, s.pc = .running t ∧ s.tasks.get t = some .root ∧ a = .user (.ready v)) ∧
    ∀ s' v, Relation.ReflTransGen (Moves Adm) s s' → s.out = some v → s'.out = some v := by
  refine ⟨fun a s' v he hnone hsome => ?_, fun s' v hr hv => ?_⟩
  · rcases step_out he with e | ⟨t, w, hpc, hroot, ha, hw⟩
    · rw [e, hnone] at hsome; cases hsome
    · rw [hw] at hsome; cases hsome; exact ⟨t, hpc, hroot, ha⟩
  · induction hr with
    | refl => exact hv
    | tail hr' hm ih =>
      obtain ⟨a, -, he⟩ := hm
      exact (hs.of_moves hr').taskInv.step_out_some he ih

/-- The root returns `Ready(0)` at its first poll, and the loop runs to its end. -/
def rootReturns : List (Move Nat) :=
  [.sched, .sched, .sched, .sched, .user (.ready 0)] ++ List.replicate 7 .sched

/-- The state the loop ends in after `rootReturns`. -/
def rootReturnedState : Exec Nat := afterSchedule rootReturns (Exec.boot Nat)

/-- After `rootReturns` the root has returned `Ready(0)`: `out` holds `0`. -/
theorem root_output_written_once_after_root_returns :
    Reachable Lawful rootReturnedState ∧ rootReturnedState.out = some 0 ∧
    (∀ a s' v, rootReturnedState.step a = some s' → rootReturnedState.out = none →
      s'.out = some v → ∃ t, rootReturnedState.pc = .running t ∧
        rootReturnedState.tasks.get t = some .root ∧ a = .user (.ready v)) ∧
    ∀ s' v, Relation.ReflTransGen (Moves Lawful) rootReturnedState s' →
      rootReturnedState.out = some v → s'.out = some v :=
  have hs : Reachable Lawful rootReturnedState := reachable_afterSchedule (Exec.boot_initial Nat) (by decide)
  ⟨hs, by decide, root_output_written_once hs⟩

end Exec

end Io2Proofs.Executor
