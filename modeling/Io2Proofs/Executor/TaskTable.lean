import Io2Proofs.Executor.Step

/-!
# The task table

What every run of `run` keeps of its task table, whatever the tasks do and whatever the kernel
answers:

* `Exec.TaskInv` — the close-file task stays in the table under its key, is the only one of its
  kind, and nothing makes it ready: it is never in the ready set, in `notifying`, among the
  deadlines, the owner of an I/O record or the caller of a child, so `run` never polls it; there
  is at most one root task, and none once `out` is filled; the polled task is in the table; and
  the two deadline vectors have one length;
* `Exec.TaskInv.step` — every step keeps it, and `Exec.Reachable.taskInv` — so every reachable
  state has it.
-/

namespace Io2Proofs.Executor

namespace Exec

variable {α : Type} {s : Exec α}

/-- **The task table's invariant.** -/
structure TaskInv (s : Exec α) : Prop where
  closeTask : s.tasks.get s.closeFileTaskId = some .closeFile
  closeTask_unique : ∀ k, s.tasks.get k = some .closeFile → k = s.closeFileTaskId
  close_not_ready : s.closeFileTaskId ∉ s.toNotify.keys
  close_not_notifying : s.closeFileTaskId ∉ s.notifying
  close_no_deadline : s.closeFileTaskId ∉ s.notifyWhen.taskId
  close_no_io : ∀ k t, s.io.get k = some t → k ≠ s.closeFileIoId → t ≠ s.closeFileTaskId
  close_not_caller : ∀ k c i, s.tasks.get k = some (.spawned c i) → c ≠ s.closeFileTaskId
  root_unique : ∀ k k', s.tasks.get k = some .root → s.tasks.get k' = some .root → k = k'
  root_out : ∀ k, s.tasks.get k = some .root → s.out = none
  running : ∀ t, s.pc = .running t → ∃ task, s.tasks.get t = some task ∧ task ≠ .closeFile
  deadlines : s.notifyWhen.timer.length = s.notifyWhen.taskId.length

namespace TaskInv

/-- The polled task is not the close-file task. -/
theorem running_ne (h : TaskInv s) {t : Nat} (hpc : s.pc = .running t) : t ≠ s.closeFileTaskId := by
  rintro rfl
  obtain ⟨task, hget, hne⟩ := h.running _ hpc
  exact hne (Option.some.inj (hget.symm.trans h.closeTask))

theorem goto (h : TaskInv s) {p : Pc} (hp : ∀ t, p ≠ .running t) : TaskInv (s.goto p) :=
  { h with running := fun t ht => absurd ht (hp t) }

theorem init (h : s.Initial) : TaskInv s := by
  obtain ⟨root, hne, htasks, hnotify⟩ := h.tasks
  have hget : ∀ k, s.tasks.get k =
      if k = s.closeFileTaskId then some .closeFile else if k = root then some .root else none := by
    intro k
    simp only [Slab.get, htasks]
    by_cases h₁ : k = s.closeFileTaskId
    · subst h₁; simp
    · rw [Slab.lookup_cons_ne h₁]
      by_cases h₂ : k = root
      · subst h₂; simp [h₁]
      · simp [Slab.lookup_cons_ne h₂, h₁, h₂]
  refine ⟨by simp [hget], fun k hk => ?_, ?_, by simp [h.notifying], by simp [h.notifyWhen],
    fun k t hk hne' => ?_, fun k c i hk => ?_, fun k k' hk hk' => ?_, fun k _ => h.out,
    fun t ht => by simp [h.pc] at ht, by simp [h.notifyWhen]⟩
  · rw [hget] at hk; split_ifs at hk with h₁ h₂ <;> simp_all
  · simp [hnotify, VecMap.keys, Ne.symm hne]
  · rw [h.io, Slab.get, Slab.lookup_cons_ne hne'] at hk; simp at hk
  · rw [hget] at hk; split_ifs at hk <;> simp at hk
  · rw [hget] at hk hk'; split_ifs at hk hk' <;> simp_all

/-! ### The scheduler's steps -/

theorem loopHead (h : TaskInv s) : TaskInv s.loopHead := h.goto (by split <;> simp)

theorem idleCheck (h : TaskInv s) : TaskInv s.idleCheck := h.goto (by split <;> simp)

/-- `notify_timers` keeps the invariant: it readies only registered ids. -/
theorem notifyTimers_step (h : TaskInv s) {nw : NotifyWhen} {tn : VecMap Nat Unit}
    (hrun : notifyTimers s.now s.notifyWhen s.toNotify = some (nw, tn)) :
    TaskInv { s with notifyWhen := nw, toNotify := tn } := by
  obtain ⟨nw', tn', hrun', hlen, hids, hkeys⟩ := notifyTimers_some s.now s.notifyWhen s.toNotify h.deadlines
  rw [hrun] at hrun'
  obtain ⟨rfl, rfl⟩ := Prod.mk.inj (Option.some.inj hrun')
  exact { h with
    close_not_ready := fun hk => (hkeys _ hk).elim h.close_not_ready h.close_no_deadline
    close_no_deadline := fun hk => h.close_no_deadline (hids _ hk)
    deadlines := hlen }

theorem waitSubmit (h : TaskInv s) (answer : Submitted) : TaskInv (s.waitSubmit answer) := by
  unfold Exec.waitSubmit
  split
  · split
    · exact { h with }
    · split
      · exact h
      · exact h.goto (by simp)
  · exact h

theorem waitPass (h : TaskInv s) (answer : Submitted) : TaskInv (s.waitPass answer) := by
  unfold Exec.waitPass
  split
  · split
    · exact h.goto (by simp)
    · exact (h.notifyTimers_step ‹_›).waitSubmit answer
  · exact h.goto (by simp)

theorem drainStart (h : TaskInv s) : TaskInv s.drainStart := by
  unfold Exec.drainStart
  split
  · exact { h with running := fun t ht => by cases ht }
  · exact { h with
      close_not_ready := by simp
      close_not_notifying := by simp [h.close_not_notifying, h.close_not_ready]
      running := fun t ht => by cases ht }

/-- A task popped from `notifying` is never the close-file task, so the branch of `pollTask`
that drops it is never taken. -/
theorem pollTask (h : TaskInv s) {t : Nat} (hne : t ≠ s.closeFileTaskId) : TaskInv (s.pollTask t) := by
  unfold Exec.pollTask
  split
  · exact h
  · rename_i task hget
    split
    · exact absurd (h.closeTask_unique t (by simp_all)) hne
    · exact { h with running := fun t' ht' => by cases ht'; exact ⟨task, hget, ‹_›⟩ }

theorem pollNext (h : TaskInv s) : TaskInv s.pollNext := by
  unfold Exec.pollNext
  split
  · exact h.goto (by simp)
  · rename_i t ht
    have hne : t ≠ s.closeFileTaskId :=
      fun e => h.close_not_notifying (e ▸ List.mem_of_getLast?_eq_some ht)
    have h' : TaskInv { s with notifying := s.notifying.dropLast } := { h with
      close_not_notifying := fun hm => h.close_not_notifying ((List.dropLast_sublist _).subset hm) }
    exact h'.pollTask hne

theorem submitBoth (h : TaskInv s) (o : Oracle) (force : Bool) {next : Pc}
    (hnext : ∀ t, next ≠ .running t) : TaskInv (s.submitBoth o force next) := by
  unfold Exec.submitBoth
  split
  · exact { h with running := fun t ht => absurd ht (hnext t) }
  · exact h.goto (by simp)

theorem afterPoll (h : TaskInv s) (o : Oracle) : TaskInv (s.afterPoll o) := by
  unfold Exec.afterPoll
  split
  · exact h.goto (by simp)
  · exact h.submitBoth o false (by simp)

theorem completeIo (h : TaskInv s) : TaskInv s.completeIo := by
  unfold Exec.completeIo
  split
  · exact h.goto (by simp)
  · split
    · exact h.goto (by simp)
    · rename_i s'' hdrain
      obtain ⟨e, hkeys⟩ := drainCqes_frame hdrain
      rw [e]
      refine { h with
        close_not_ready := fun hk => ?_
        running := fun t ht => by cases ht }
      rcases hkeys _ hk with h' | ⟨c, -, hc, hget⟩
      · exact h.close_not_ready h'
      · exact h.close_no_io _ _ hget hc rfl

theorem fireTimers (h : TaskInv s) : TaskInv s.fireTimers := by
  unfold Exec.fireTimers
  split
  · exact h.goto (by simp)
  · rename_i hrun
    exact { h.notifyTimers_step hrun with running := fun t ht => by cases ht }

theorem closeFiles (h : TaskInv s) : TaskInv s.closeFiles :=
  { h with running := fun t ht => by cases ht }

theorem schedStep (h : TaskInv s) {o : Oracle} {s' : Exec α} (hs : s.schedStep o = some s') :
    TaskInv s' := by
  unfold Exec.schedStep at hs
  split at hs <;> cases hs
  · exact h.loopHead
  · exact h.idleCheck
  · exact h.waitPass _
  · exact h.drainStart
  · exact h.pollNext
  · exact h.afterPoll o
  · exact h.submitBoth o true (by simp)
  · exact h.completeIo
  · exact h.fireTimers
  · exact h.closeFiles

/-! ### The polled task's steps -/

theorem spawn (h : TaskInv s) {t child : Nat} (hpc : s.pc = .running t) (hfree : child ∉ s.tasks) :
    TaskInv (CurrentTaskContext.spawn s t child).2 := by
  have hne : child ≠ s.closeFileTaskId := fun e => hfree (e ▸ Slab.mem_of_get h.closeTask)
  have hget : ∀ k, (s.tasks.insert child (.spawned t s.slots.length)).get k =
      if k = child then some (.spawned t s.slots.length) else s.tasks.get k := Slab.get_insert _ hfree
  simp only [CurrentTaskContext.spawn, CurrentTaskContext.notify]
  refine ⟨?_, fun k hk => ?_, ?_, h.close_not_notifying, h.close_no_deadline, h.close_no_io,
    fun k c i hk => ?_, fun k k' hk hk' => ?_, fun k hk => ?_, fun t' ht' => ?_, h.deadlines⟩
  · rw [hget, if_neg (Ne.symm hne)]; exact h.closeTask
  · rw [hget] at hk; split_ifs at hk
    · cases hk
    · exact h.closeTask_unique k hk
  · simp [hne.symm, h.close_not_ready]
  · rw [hget] at hk; split_ifs at hk
    · cases hk; exact h.running_ne hpc
    · exact h.close_not_caller k c i hk
  · rw [hget] at hk hk'; split_ifs at hk hk' <;> first | cases hk | cases hk' | exact h.root_unique k k' hk hk'
  · rw [hget] at hk; split_ifs at hk
    · cases hk
    · exact h.root_out k hk
  · obtain ⟨task, htask, hcf⟩ := h.running t' ht'
    refine ⟨task, ?_, hcf⟩
    rw [hget, if_neg (show t' ≠ child from fun e => hfree (e ▸ Slab.mem_of_get htask))]
    exact htask

theorem queueIo (h : TaskInv s) {t : Nat} (hpc : s.pc = .running t) (entry : Entry) (directIo : Bool)
    {ioId : Nat} (hfree : ioId ∉ s.io) : TaskInv (CurrentTaskContext.queueIo s t entry directIo ioId) := by
  have hio : ∀ k t', (s.io.insert ioId t).get k = some t' → k ≠ s.closeFileIoId →
      t' ≠ s.closeFileTaskId := by
    intro k t' hk hne
    rw [Slab.get_insert t hfree] at hk
    split_ifs at hk
    · cases hk; exact h.running_ne hpc
    · exact h.close_no_io k t' hk hne
  unfold CurrentTaskContext.queueIo
  split
  · exact { h with close_no_io := hio }
  · exact { h with close_no_io := hio }

theorem takeIoResult (h : TaskInv s) (ioId : Nat) : TaskInv (CurrentTaskContext.takeIoResult s ioId).2 := by
  unfold CurrentTaskContext.takeIoResult
  split
  · refine { h with close_no_io := fun k t hk hne => ?_ }
    rw [Slab.get_remove] at hk
    split_ifs at hk
    exact h.close_no_io k t hk hne
  · exact { h with }

theorem finishTask (h : TaskInv s) {t : Nat} (hpc : s.pc = .running t) (v : α) :
    TaskInv ((s.finishTask t v).goto .polled) := by
  have hne := h.running_ne hpc
  have closeTask : (s.tasks.remove t).get s.closeFileTaskId = some .closeFile := by
    rw [Slab.get_remove, if_neg hne.symm]; exact h.closeTask
  obtain ⟨task, hget, hcf⟩ := h.running t hpc
  cases task with
  | root =>
    simp only [Exec.finishTask, hget, Exec.storeOutput]
    exact { h with
      closeTask := closeTask
      closeTask_unique := fun k hk => h.closeTask_unique k (Slab.get_remove_some hk).2
      close_not_caller := fun k c i hk => h.close_not_caller k c i (Slab.get_remove_some hk).2
      root_unique := fun k _ hk _ =>
        absurd (h.root_unique k t (Slab.get_remove_some hk).2 hget) (Slab.get_remove_some hk).1
      root_out := fun k hk =>
        absurd (h.root_unique k t (Slab.get_remove_some hk).2 hget) (Slab.get_remove_some hk).1
      running := fun _ ht => by cases ht }
  | closeFile => exact absurd rfl hcf
  | spawned caller out =>
    simp only [Exec.finishTask, hget, Exec.storeOutput]
    exact { h with
      closeTask := closeTask
      closeTask_unique := fun k hk => h.closeTask_unique k (Slab.get_remove_some hk).2
      close_not_ready := by
        simp [Exec.goto, CurrentTaskContext.notify, h.close_not_ready,
          (h.close_not_caller t caller out hget).symm]
      close_not_caller := fun k c i hk => h.close_not_caller k c i (Slab.get_remove_some hk).2
      root_unique := fun k k' hk hk' =>
        h.root_unique k k' (Slab.get_remove_some hk).2 (Slab.get_remove_some hk').2
      root_out := fun k hk => h.root_out k (Slab.get_remove_some hk).2
      running := fun _ ht => by cases ht }

theorem userStep (h : TaskInv s) {t : Nat} (hpc : s.pc = .running t) {op : Op α} {s' : Exec α}
    (hs : s.userStep t op = some s') : TaskInv s' := by
  cases op with
  | queueIo entry directIo ioId =>
    simp only [Exec.userStep] at hs
    split at hs
    · cases hs
    · cases hs; exact h.queueIo hpc entry directIo ‹_›
  | takeIoResult ioId => cases hs; exact h.takeIoResult ioId
  | notifyWhen when =>
    cases hs
    exact { h with
      close_no_deadline := by
        simp [CurrentTaskContext.notifyWhen, h.close_no_deadline, (h.running_ne hpc).symm]
      deadlines := by simp [CurrentTaskContext.notifyWhen, h.deadlines] }
  | spawn child =>
    simp only [Exec.userStep] at hs
    split at hs
    · cases hs
    · cases hs; exact h.spawn hpc ‹_›
  | yieldIfNeeded =>
    cases hs
    unfold CurrentTaskContext.yieldIfNeeded
    split
    · exact h
    · have hne := (h.running_ne hpc).symm
      exact { h with close_not_ready := by simp [CurrentTaskContext.notify, h.close_not_ready, hne] }
  | pollJoin out =>
    simp only [Exec.userStep] at hs
    split at hs
    · cases hs
      rw [Exec.pollJoin_eq]
      split <;> exact { h with }
    · cases hs
  | dropFile fd => cases hs; exact { h with }
  | pending => cases hs; exact h.goto (by simp)
  | ready v => cases hs; exact h.finishTask hpc v

/-- **Every step keeps the task table's invariant.** -/
theorem step (h : TaskInv s) {a : Action α} {s' : Exec α} (hs : s.step a = some s') : TaskInv s' := by
  cases a with
  | sched o => exact h.schedStep hs
  | user op =>
    simp only [Exec.step] at hs
    split at hs
    · exact h.userStep ‹_› hs
    · cases hs
  | kernel dio i res =>
    simp only [Exec.step, Exec.kernelComplete] at hs
    split at hs <;> split at hs <;> cases hs <;> exact { h with }
  | tick d => cases hs; exact { h with }

end TaskInv

theorem Reachable.taskInv {Adm : Exec α → Action α → Prop} (hs : Reachable Adm s) : TaskInv s :=
  Reachable.induction (fun _ h => TaskInv.init h) (fun _ _ _ _ h _ hs => h.step hs) hs

/-- **The reserved close-file task is never polled.** In every reachable state it is in the task
table under its key, it is not the polled task, and it is neither ready nor in `notifying`: the
`async {}` it holds never runs, and the branch of `run` that drops a task found ready at its
first poll is never taken. -/
theorem close_handler_never_polled {Adm : Exec α → Action α → Prop} (hs : Reachable Adm s) :
    s.tasks.get s.closeFileTaskId = some .closeFile ∧ (∀ t, s.pc = .running t → t ≠ s.closeFileTaskId) ∧
      s.closeFileTaskId ∉ s.toNotify.keys ∧ s.closeFileTaskId ∉ s.notifying :=
  have h := hs.taskInv
  ⟨h.closeTask, fun _ => h.running_ne, h.close_not_ready, h.close_not_notifying⟩

/-- The root spawns the children `2` and `3` and returns `Pending`; the next iteration moves the
ready set into `notifying` and polls `3`, the last id. -/
def spawnTwoSchedule : List (Move Nat) :=
  [.sched, .sched, .sched, .sched, .user (.spawn 2), .user (.spawn 3), .user .pending] ++
    List.replicate 10 .sched

/-- The state after `spawnTwoSchedule`: `3` is polled with `2` left in `notifying`. -/
def pollingThree : Exec Nat := afterSchedule spawnTwoSchedule (Exec.boot Nat)

/-- While the loop polls `3` with `2` still to poll, the close-file task is in the table and is
neither the polled task nor in `notifying`. -/
theorem close_handler_never_polled_mid_drain :
    Reachable Lawful pollingThree ∧ pollingThree.pc = .running 3 ∧ pollingThree.notifying = [2] ∧
    pollingThree.tasks.keys = [0, 1, 2, 3] ∧
    (pollingThree.tasks.get pollingThree.closeFileTaskId = some .closeFile ∧
      (∀ t, pollingThree.pc = .running t → t ≠ pollingThree.closeFileTaskId) ∧
      pollingThree.closeFileTaskId ∉ pollingThree.toNotify.keys ∧
      pollingThree.closeFileTaskId ∉ pollingThree.notifying) :=
  have hs : Reachable Lawful pollingThree := reachable_afterSchedule (Exec.boot_initial Nat) (by decide)
  ⟨hs, by decide, by decide, by decide, close_handler_never_polled hs⟩

end Exec

end Io2Proofs.Executor
