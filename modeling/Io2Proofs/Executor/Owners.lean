import Io2Proofs.Executor.Results
import Io2Proofs.Executor.Wakeups

/-!
# The scheduler wakes only the tasks that asked

The scheduler's own steps ready a task for two reasons (`Exec.Woken`): the completion drain
readies the task that the I/O record of a completion names (`io.get(io_id)`), and
`notify_timers` readies the task registered with an elapsed deadline. Both tables are written
by the polled task only: `queue_io` records the polled task under the I/O id it hands out
(`io.insert(self.task_id)`), and `notify_when` pushes the deadline with the polled task's id.
`take_io_result` and `notify_timers` only remove entries. So along every run every entry of
either table goes back to the call that made it, and a task the scheduler readies asked for it.

* `Exec.ownedBy`, `Exec.registeredBy` — the entry a step of `queue_io`, of `notify_when`, adds:
  the I/O id or the deadline, with the polled task;
* `Exec.tables_step`, `Exec.tables_run` — along every run the records are a subsequence, and the
  deadlines a sub-multiset, of those at the start followed by the ones the tasks added;
* `Exec.scheduler_readies_only_requesters` — along every run from the state `run` starts its
  loop in, a task a scheduler step adds to the ready set queued, along the run, the I/O of a
  completion the drain found, or registered a deadline that has elapsed.
-/

namespace Io2Proofs.Executor

namespace Exec

variable {α : Type} {s s' : Exec α}

/-- The record `queue_io` makes when the polled task queues an entry under the I/O id `k`. -/
def ownedBy (s : Exec α) : Action α → List (Nat × Nat)
  | .user (.queueIo _ _ k) =>
    match s.pc with
    | .running t => [(k, t)]
    | _ => []
  | _ => []

/-- The deadline `notify_when` pushes when the polled task registers the instant `w`. -/
def registeredBy (s : Exec α) : Action α → List (Nat × Nat)
  | .user (.notifyWhen w) =>
    match s.pc with
    | .running t => [(w, t)]
    | _ => []
  | _ => []

/-! ### One step -/

/-- `notify_timers` only removes deadlines. -/
theorem notifyTimers_pairs {time : Nat} {nw nw' : NotifyWhen} {tn tn' : VecMap Nat Unit}
    (hlen : nw.timer.length = nw.taskId.length) (heq : notifyTimers time nw tn = some (nw', tn')) :
    nw'.pairs.Subperm nw.pairs := by
  obtain ⟨nw'', tn'', hrun, -, hperm, -⟩ := notifyTimers_spec time nw tn hlen
  rw [heq, Option.some.injEq, Prod.mk.injEq] at hrun
  obtain ⟨rfl, -⟩ := hrun
  exact hperm.subperm.trans (List.filter_sublist _).subperm

theorem waitSubmit_notifyWhen (answer : Submitted) : (s.waitSubmit answer).notifyWhen = s.notifyWhen := by
  unfold waitSubmit
  repeat' split
  all_goals rfl

/-- A scheduler step keeps the deadlines, or is a call of `notify_timers`. -/
theorem schedStep_notifyWhen {o : Oracle} (hs : s.schedStep o = some s') :
    s'.notifyWhen = s.notifyWhen ∨ ∃ tn, notifyTimers s.now s.notifyWhen s.toNotify = some (s'.notifyWhen, tn) := by
  unfold schedStep at hs
  split at hs <;> cases hs
  case h_3 =>
    unfold waitPass
    split
    · split
      · exact .inl rfl
      · rename_i nw tn heq
        rw [waitSubmit_notifyWhen]
        exact .inr ⟨tn, heq⟩
    · exact .inl rfl
  case h_10 =>
    unfold fireTimers
    split
    · exact .inl rfl
    · rename_i nw tn heq
      exact .inr ⟨tn, heq⟩
  all_goals refine .inl ?_
  · rfl
  · rfl
  · unfold drainStart; split <;> rfl
  · unfold pollNext pollTask
    repeat' split
    all_goals rfl
  · unfold afterPoll submitBoth
    repeat' split
    all_goals rfl
  · unfold submitBoth; split <;> rfl
  · unfold completeIo
    split
    · rfl
    · split
      · rfl
      · rename_i hdrain
        rw [(drainCqes_frame hdrain).1]
        rfl
  · rfl

/-- **A step adds only the record of its `queue_io` and the deadline of its `notify_when`**;
`take_io_result` removes a record and `notify_timers` some deadlines, and no other step
touches either table. -/
theorem tables_step (h : TaskInv s) {a : Action α} (hs : s.step a = some s') :
    s'.io.entries.Sublist (s.io.entries ++ s.ownedBy a) ∧
      s'.notifyWhen.pairs.Subperm (s.notifyWhen.pairs ++ s.registeredBy a) := by
  cases a with
  | sched o =>
    refine ⟨by rw [(schedStep_frame hs).io]; exact List.sublist_append_left _ _,
      List.Subperm.trans ?_ (List.sublist_append_left _ _).subperm⟩
    rcases schedStep_notifyWhen hs with he | ⟨tn, heq⟩
    · rw [he]
    · exact notifyTimers_pairs h.deadlines heq
  | user op =>
    simp only [step] at hs
    split at hs
    · rename_i t hpc
      cases op <;> simp only [ownedBy, registeredBy, hpc, List.append_nil]
      case queueIo e d k =>
        simp only [userStep] at hs
        split at hs
        · cases hs
        · cases hs; unfold CurrentTaskContext.queueIo; split <;> exact ⟨.refl _, .refl _⟩
      case takeIoResult k =>
        cases hs; unfold CurrentTaskContext.takeIoResult; split
        exacts [⟨List.filter_sublist _, .refl _⟩, ⟨.refl _, .refl _⟩]
      case notifyWhen w =>
        cases hs
        simp only [CurrentTaskContext.notifyWhen, NotifyWhen.pairs, List.zip_append h.deadlines,
          List.zip_cons_cons, List.zip_nil_left]
        exact ⟨.refl _, .refl _⟩
      case dropFile fd => cases hs; exact ⟨.refl _, .refl _⟩
      all_goals
        have hq := userStep_quiet hs trivial
        rw [hq.io, hq.notifyWhen]
        exact ⟨.refl _, .refl _⟩
    · cases hs
  | kernel d i res =>
    change s.kernelComplete d i res = some s' at hs
    unfold kernelComplete at hs
    split at hs <;> split at hs <;> cases hs <;>
      exact ⟨List.sublist_append_left _ _, (List.sublist_append_left _ _).subperm⟩
  | tick d => cases hs; exact ⟨List.sublist_append_left _ _, (List.sublist_append_left _ _).subperm⟩

/-! ### Runs -/

section Runs

variable {ok : Exec α → Action α → Prop} [∀ s a, Decidable (ok s a)]

/-- **Along every run, the records are those at the start and those `queue_io` made**, in
that order, some of them taken; **and the deadlines are among those at the start and those
`notify_when` pushed.** -/
theorem tables_run : ∀ {acts : List (Action α)} {s s' : Exec α}, TaskInv s →
    runActs ok acts s = some s' →
    s'.io.entries.Sublist (s.io.entries ++ along ownedBy acts s) ∧
      s'.notifyWhen.pairs.Subperm (s.notifyWhen.pairs ++ along registeredBy acts s)
  | [], _, _, _, h => by
    cases h; exact ⟨List.sublist_append_left _ _, (List.sublist_append_left _ _).subperm⟩
  | _ :: _, _, _, hinv, h => by
    obtain ⟨s₁, -, ha, h⟩ := runActs_cons_eq_some h
    obtain ⟨hio, hpairs⟩ := tables_step hinv ha
    obtain ⟨ihio, ihpairs⟩ := tables_run (hinv.step ha) h
    simp only [along, ha, Option.map_some', Option.getD_some, ← List.append_assoc]
    exact ⟨ihio.trans (hio.append_right _), ihpairs.trans ((List.subperm_append_right _).2 hpairs)⟩

theorem closeFileIoId_run : ∀ {acts : List (Action α)} {s s' : Exec α},
    runActs ok acts s = some s' → s'.closeFileIoId = s.closeFileIoId
  | [], _, _, h => by cases h; rfl
  | _ :: _, _, _, h => by
    obtain ⟨s₁, -, ha, h⟩ := runActs_cons_eq_some h
    rw [closeFileIoId_run h, step_closeFileIoId ha]

/-- **The scheduler readies only a task that asked for it.** Along every run from the state
`run` starts its loop in, whatever the kernel answers and whatever the tasks do, a task that a
step of the scheduler adds to the ready set was, at some step of the run, the polled task
calling `queue_io` for the I/O id of a completion the drain found, or calling `notify_when`
for an instant that has passed. -/
theorem scheduler_readies_only_requesters {acts : List (Action α)} {s₀ : Exec α}
    (hi : s₀.Initial) (h : runActs ok acts s₀ = some s) {o : Oracle}
    (he : s.step (.sched o) = some s') {t : Nat} (ht : t ∈ s'.toNotify.keys)
    (hnew : t ∉ s.toNotify.keys) :
    (∃ c ∈ s.ring.cq ++ s.dioRing.cq, (c.userData, t) ∈ along ownedBy acts s₀) ∨
      ∃ w < s.now, (w, t) ∈ along registeredBy acts s₀ := by
  have hs : Reachable (fun _ _ => True) s := runActs_reachable (.init hi) (fun _ _ _ _ => trivial) h
  obtain ⟨hio, hpairs⟩ := tables_run (TaskInv.init hi) h
  cases ((step_wake hs.taskInv he).woken t ht).resolve_left hnew with
  | completed c _ hc hne hget =>
    refine .inl ⟨c, hc, ?_⟩
    rcases List.mem_append.1 (hio.subset (Slab.mem_entries_of_get hget)) with hmem | hmem
    · rw [hi.io, List.mem_singleton, Prod.mk.injEq] at hmem
      exact absurd (hmem.1.trans (closeFileIoId_run h).symm) hne
    · exact hmem
  | deadline w _ hw hlt =>
    have hmem := hpairs.subset hw
    rw [hi.notifyWhen] at hmem
    exact .inr ⟨w, hlt, hmem⟩

end Runs

/-- The root's read, queued and completed, and the loop up to its completion drain. -/
def drainSchedule : List (Move Nat) :=
  readSchedule ++ [.user .pending, .sched, .kernel false 0 5, .sched, .sched]

/-- The state after `drainSchedule`: the read's completion waits for the drain. -/
def completionFound : Exec Nat := afterSchedule drainSchedule (Exec.boot Nat)

/-- The drain readies the root, which queued the read under the I/O id `1`. -/
theorem scheduler_readies_only_requesters_read :
    runActs KeepsContract (drainSchedule.map Move.act) (Exec.boot Nat) = some completionFound ∧
    completionFound.step (.sched okAll) = some completionFound.completeIo ∧
    1 ∈ completionFound.completeIo.toNotify.keys ∧ 1 ∉ completionFound.toNotify.keys ∧
    along ownedBy (drainSchedule.map Move.act) (Exec.boot Nat) = [(1, 1)] ∧
    ((∃ c ∈ completionFound.ring.cq ++ completionFound.dioRing.cq,
      (c.userData, 1) ∈ along ownedBy (drainSchedule.map Move.act) (Exec.boot Nat)) ∨
      ∃ w < completionFound.now, (w, 1) ∈ along registeredBy (drainSchedule.map Move.act) (Exec.boot Nat)) :=
  have h : runActs KeepsContract (drainSchedule.map Move.act) (Exec.boot Nat) = some completionFound :=
    rfl
  have he : completionFound.step (.sched okAll) = some completionFound.completeIo := by
    rw [step, schedStep, show completionFound.pc = .complete from rfl]
  have ht : 1 ∈ completionFound.completeIo.toNotify.keys := by decide
  have hnew : 1 ∉ completionFound.toNotify.keys := by decide
  ⟨h, he, ht, hnew, by decide,
    scheduler_readies_only_requesters (Exec.boot_initial Nat) h he ht hnew⟩

end Exec

end Io2Proofs.Executor
