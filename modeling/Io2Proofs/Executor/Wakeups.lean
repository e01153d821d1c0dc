import Io2Proofs.Executor.TaskTable

/-!
# Why a task is woken

`run` polls the tasks of its ready set `to_notify`, which each drain moves to `notifying`. A
task joins the ready set only for a reason of its own:

* it has just been spawned (`spawn` notifies the child);
* it called `yield_if_needed` past the budget (it notifies itself);
* a child it spawned returned `Ready` (the child's wrapper notifies its caller);
* the drain found a completion of an I/O record that names it;
* a deadline it registered with `notify_when` elapsed (`notify_timers`, in the wait loop or after
  the drain).

And nothing that should wake a task is dropped on its way to the ready set: a deadline leaves
`notify_when` only once elapsed, readying its task, and a completion leaves the completion queues
only in the drain, readying the task of its I/O record.

* `Exec.Woken` — the reasons, for one step;
* `Exec.WakeStep` — what a step does to the ready set, the deadlines and the completions, and
  `Exec.step_wake`, from one lemma for the scheduler's steps and one for the polled task's;
* `Exec.tasks_woken_only_for_cause` — from every reachable state, every step adds to the ready
  set only tasks woken for one of these reasons: no task is woken for nothing;
* `Exec.deadlines_and_completions_wake_their_tasks` — from every reachable state, no step drops
  a deadline or a completion without readying its task.
-/

namespace Io2Proofs.Executor

namespace Exec

variable {α : Type} {s s' : Exec α}

/-- **The reasons the step `a` from `s` may ready the task `t`.** -/
inductive Woken (s : Exec α) : Action α → Nat → Prop
  | spawned {p : Nat} (t : Nat) : s.pc = .running p → Woken s (.user (.spawn t)) t
  | yielded {t : Nat} : s.pc = .running t → s.preemptDuration ≤ s.now - s.start →
      Woken s (.user .yieldIfNeeded) t
  | joined {p t i : Nat} (v : α) :
      s.pc = .running p → s.tasks.get p = some (.spawned t i) → Woken s (.user (.ready v)) t
  | completed {o : Oracle} {t : Nat} (c : Cqe) : s.pc = .complete →
      c ∈ s.ring.cq ++ s.dioRing.cq → c.userData ≠ s.closeFileIoId → s.io.get c.userData = some t →
      Woken s (.sched o) t
  | deadline {o : Oracle} {t : Nat} (w : Nat) : s.pc = .wait ∨ s.pc = .timers →
      (w, t) ∈ s.notifyWhen.pairs → w < s.now → Woken s (.sched o) t

/-- **What a step does to the ready set, the deadlines and the completions**: it adds to the
ready set only tasks woken for a reason; a deadline it drops had elapsed and its task is ready;
a completion it drops was of an I/O record whose task is ready. -/
structure WakeStep (s : Exec α) (a : Action α) (s' : Exec α) : Prop where
  woken : ∀ t ∈ s'.toNotify.keys, t ∈ s.toNotify.keys ∨ s.Woken a t
  deadlines : ∀ p ∈ s.notifyWhen.pairs, p ∈ s'.notifyWhen.pairs ∨ p.1 < s.now ∧ p.2 ∈ s'.toNotify.keys
  completions : ∀ c ∈ s.ring.cq ++ s.dioRing.cq, c.userData ≠ s.closeFileIoId →
    c ∈ s'.ring.cq ++ s'.dioRing.cq ∨ ∃ t, s.io.get c.userData = some t ∧ t ∈ s'.toNotify.keys

variable {a : Action α}

/-- A step that keeps the deadlines and the completions. -/
theorem WakeStep.of_woken (hw : ∀ t ∈ s'.toNotify.keys, t ∈ s.toNotify.keys ∨ s.Woken a t)
    (hn : s'.notifyWhen = s.notifyWhen) (hc : s.ring.cq ++ s.dioRing.cq ⊆ s'.ring.cq ++ s'.dioRing.cq) :
    WakeStep s a s' :=
  ⟨hw, fun _ hp => .inl (hn ▸ hp), fun _ hc' _ => .inl (hc hc')⟩

/-- A step that leaves the ready set, the deadlines and the completions alone. -/
theorem WakeStep.same (ht : s'.toNotify = s.toNotify) (hn : s'.notifyWhen = s.notifyWhen)
    (hc : s'.ring.cq ++ s'.dioRing.cq = s.ring.cq ++ s.dioRing.cq) : WakeStep s a s' :=
  .of_woken (fun _ h => .inl (ht ▸ h)) hn fun _ h => hc ▸ h

/-- A step that readies the task `t`, woken for a reason, and keeps the deadlines and the
completions. -/
theorem WakeStep.notify {t : Nat} (hw : s.Woken a t) (ht : s'.toNotify = s.toNotify.insert t ())
    (hn : s'.notifyWhen = s.notifyWhen)
    (hc : s'.ring.cq ++ s'.dioRing.cq = s.ring.cq ++ s.dioRing.cq) : WakeStep s a s' := by
  refine .of_woken (fun t' ht' => ?_) hn fun _ h => hc ▸ h
  rw [ht] at ht'
  rcases (VecMap.mem_keys_insert _ _ _ _).1 ht' with rfl | ht'
  exacts [.inr hw, .inl ht']

/-! ### The scheduler's steps -/

theorem waitSubmit_wakeFrame (answer : Submitted) :
    (s.waitSubmit answer).toNotify = s.toNotify ∧ (s.waitSubmit answer).notifyWhen = s.notifyWhen ∧
      (s.waitSubmit answer).ring.cq ++ (s.waitSubmit answer).dioRing.cq =
        s.ring.cq ++ s.dioRing.cq := by
  unfold waitSubmit
  split
  · split
    · exact ⟨rfl, rfl, rfl⟩
    · split <;> exact ⟨rfl, rfl, rfl⟩
  · exact ⟨rfl, rfl, rfl⟩

/-- **`notify_timers` readies the task of every elapsed deadline it drops.** -/
theorem notifyTimers_wake (h : TaskInv s) {nw : NotifyWhen} {tn : VecMap Nat Unit}
    (heq : notifyTimers s.now s.notifyWhen s.toNotify = some (nw, tn))
    (hpc : s.pc = .wait ∨ s.pc = .timers) {o : Oracle} (ht : s'.toNotify = tn)
    (hn : s'.notifyWhen = nw) (hc : s'.ring.cq ++ s'.dioRing.cq = s.ring.cq ++ s.dioRing.cq) :
    WakeStep s (.sched o) s' := by
  obtain ⟨nw', tn', hrun, -, hperm, hkeys⟩ :=
    notifyTimers_spec s.now s.notifyWhen s.toNotify h.deadlines
  rw [heq, Option.some.injEq, Prod.mk.injEq] at hrun
  obtain ⟨rfl, rfl⟩ := hrun
  subst ht hn
  refine ⟨fun t hm => ((hkeys t).1 hm).imp_right fun ⟨w, hw, hlt⟩ => .deadline w hpc hw hlt,
    fun p hp => ?_, fun _ hc' _ => .inl (hc ▸ hc')⟩
  by_cases hle : s.now ≤ p.1
  · exact .inl (hperm.mem_iff.2 (List.mem_filter.2 ⟨hp, decide_eq_true hle⟩))
  · exact .inr ⟨by omega, (hkeys p.2).2 (.inr ⟨p.1, hp, by omega⟩)⟩

/-- The drain keeps the ready set it starts from. -/
theorem drainCqes_toNotify_mono : ∀ {l : List Cqe} {s s' : Exec α}, drainCqes l s = some s' →
    ∀ t ∈ s.toNotify.keys, t ∈ s'.toNotify.keys
  | [], _, _, h, _, ht => by cases h; exact ht
  | c :: rest, s, s', h, t, ht => by
    simp only [drainCqes] at h
    split at h
    · split at h
      · cases h
      · exact drainCqes_toNotify_mono h t ht
    · split at h
      · cases h
      · exact drainCqes_toNotify_mono h t ((VecMap.mem_keys_insert _ _ _ _).2 (.inr ht))

/-- **The drain readies the task of every completion it posts.** -/
theorem drainCqes_notifies : ∀ {l : List Cqe} {s s' : Exec α}, drainCqes l s = some s' →
    ∀ c ∈ l, c.userData ≠ s.closeFileIoId → ∃ t, s.io.get c.userData = some t ∧ t ∈ s'.toNotify.keys
  | [], _, _, _, _, hc, _ => nomatch hc
  | c :: rest, s, s', h, c', hc', hne => by
    simp only [drainCqes] at h
    rcases List.mem_cons.1 hc' with rfl | hc'
    · rw [if_neg hne] at h
      split at h
      · cases h
      · rename_i t hget
        exact ⟨t, hget, drainCqes_toNotify_mono h t ((VecMap.mem_keys_insert _ _ _ _).2 (.inl rfl))⟩
    · split at h <;> split at h
      all_goals first | cases h | exact drainCqes_notifies h c' hc' hne

theorem submitBoth_wake (o' : Oracle) (force : Bool) (next : Pc) {o : Oracle} :
    WakeStep s (.sched o) (s.submitBoth o' force next) := by
  unfold submitBoth
  split
  · rename_i hq hd
    exact .same rfl rfl (by rw [(trySubmitIo_conserve hq).2, (trySubmitIo_conserve hd).2])
  · exact .same rfl rfl rfl

/-- The drain readies the owners of the completions it posts. -/
theorem completeIo_wake (hpc : s.pc = .complete) {o : Oracle} : WakeStep s (.sched o) s.completeIo := by
  unfold completeIo
  split
  · exact .same rfl rfl rfl
  · split
    · exact .same rfl rfl rfl
    · rename_i s'' hdrain
      obtain ⟨e, hk⟩ := drainCqes_frame hdrain
      refine ⟨fun t ht => (hk t ht).imp_right fun ⟨c, hc, hne, hget⟩ => .completed c hpc hc hne hget,
        fun p hp => .inl ?_, fun c hc hne => .inr (drainCqes_notifies hdrain c hc hne)⟩
      rw [e]
      exact hp

/-- **The scheduler's steps**: the drain readies the owners of the completions it posts, and
`notify_timers` the tasks of the elapsed deadlines, in the wait loop and after the drain. -/
theorem schedStep_wake (h : TaskInv s) {o : Oracle} (hs : s.schedStep o = some s') :
    WakeStep s (.sched o) s' := by
  unfold Exec.schedStep at hs
  split at hs <;> rename_i hpc <;> cases hs
  · exact .same rfl rfl rfl
  · exact .same rfl rfl rfl
  · unfold waitPass
    split
    · split
      · exact .same rfl rfl rfl
      · rename_i heq
        obtain ⟨ht, hn, hc⟩ := waitSubmit_wakeFrame (s := { s with notifyWhen := _, toNotify := _ }) o.wait
        exact notifyTimers_wake h heq (.inl hpc) ht hn hc
    · exact .same rfl rfl rfl
  · unfold drainStart
    split
    · exact .same rfl rfl rfl
    · exact .of_woken (fun t ht => by simp at ht) rfl fun _ h => h
  · unfold pollNext pollTask
    split
    · exact .same rfl rfl rfl
    · split
      · exact .same rfl rfl rfl
      · split <;> exact .same rfl rfl rfl
  · unfold afterPoll
    split
    · exact .same rfl rfl rfl
    · exact submitBoth_wake o false .polling
  · exact submitBoth_wake o true .complete
  · exact completeIo_wake hpc
  · unfold fireTimers
    split
    · exact .same rfl rfl rfl
    · exact notifyTimers_wake h ‹_› (.inr hpc) rfl rfl rfl
  · exact .same rfl rfl rfl

/-! ### The polled task's steps -/

/-- **The polled task's steps** ready the children it spawns, itself when it yields, and, when
it returns, the task that spawned it; `notify_when` adds a deadline and drops none. -/
theorem userStep_wake (h : TaskInv s) {p : Nat} (hpc : s.pc = .running p) {op : Op α}
    (hs : s.userStep p op = some s') : WakeStep s (.user op) s' := by
  cases op with
  | queueIo entry directIo ioId =>
    simp only [userStep] at hs
    split at hs
    · cases hs
    · cases hs; unfold CurrentTaskContext.queueIo; split <;> exact .same rfl rfl rfl
  | takeIoResult ioId =>
    cases hs; unfold CurrentTaskContext.takeIoResult; split <;> exact .same rfl rfl rfl
  | notifyWhen when =>
    cases hs
    refine ⟨fun t ht => .inl ht, fun q hq => .inl ?_, fun _ hc _ => .inl hc⟩
    simp only [CurrentTaskContext.notifyWhen, NotifyWhen.pairs, List.zip_append h.deadlines]
    exact List.mem_append_left _ hq
  | spawn child =>
    simp only [userStep] at hs
    split at hs
    · cases hs
    · cases hs; exact .notify (.spawned child hpc) rfl rfl rfl
  | yieldIfNeeded =>
    cases hs
    unfold CurrentTaskContext.yieldIfNeeded
    split
    · exact .same rfl rfl rfl
    · rename_i hle
      exact .notify (.yielded hpc (Nat.not_lt.1 hle)) rfl rfl rfl
  | pollJoin out =>
    simp only [userStep] at hs
    split at hs
    · cases hs; rw [pollJoin_eq]; split <;> exact .same rfl rfl rfl
    · cases hs
  | ready v =>
    cases hs
    unfold finishTask
    cases hget : s.tasks.get p with
    | none => exact .same rfl rfl rfl
    | some task =>
      cases task with
      | spawned c i => exact .notify (.joined v hpc hget) rfl rfl rfl
      | _ => exact .same rfl rfl rfl
  | _ => cases hs; exact .same rfl rfl rfl

/-- **What every step does to the ready set, the deadlines and the completions.** -/
theorem step_wake (h : TaskInv s) (he : s.step a = some s') : WakeStep s a s' := by
  cases a with
  | sched o => exact schedStep_wake h he
  | user op =>
    simp only [Exec.step] at he
    split at he
    · exact userStep_wake h ‹_› he
    · cases he
  | kernel dio i res =>
    simp only [Exec.step, kernelComplete] at he
    split at he <;> split at he <;> cases he <;> refine .of_woken (fun _ ht => .inl ht) rfl fun c hc => ?_ <;>
      simp only [List.mem_append] at hc ⊢
    · exact hc.imp_right (Ring.cq_subset_complete _ i res ·)
    · exact hc.imp_left (Ring.cq_subset_complete _ i res ·)
  | tick d => cases he; exact .same rfl rfl rfl

/-- **No task is woken for nothing.** From every reachable state, whatever the kernel answers and
whatever the tasks do, a step adds a task to the ready set only if the task was just spawned, or
yielded past the budget, or is the caller of the child that returned, or owns the I/O record of
a completion the drain found, or registered a deadline that has elapsed. -/
theorem tasks_woken_only_for_cause {Adm : Exec α → Action α → Prop} (hs : Reachable Adm s)
    (he : s.step a = some s') {t : Nat} (ht : t ∈ s'.toNotify.keys)
    (hnew : t ∉ s.toNotify.keys) : s.Woken a t :=
  ((step_wake hs.taskInv he).woken t ht).resolve_left hnew

/-- The root registers a deadline at `5` and returns `Pending`; the loop runs to its wait loop,
and the clock moves to `6`. -/
def deadlineSchedule : List (Move Nat) :=
  List.replicate 4 .sched ++ [.user (.notifyWhen 5), .user .pending] ++ List.replicate 8 .sched ++
    [.tick 6]

/-- The state after `deadlineSchedule`. -/
def deadlinePassed : Exec Nat := afterSchedule deadlineSchedule (Exec.boot Nat)

/-- The next pass of the wait loop readies the root, for its elapsed deadline. -/
theorem tasks_woken_only_for_cause_deadline :
    Reachable Lawful deadlinePassed ∧
    deadlinePassed.step (.sched okAll) = some (deadlinePassed.waitPass okAll.wait) ∧
    1 ∈ (deadlinePassed.waitPass okAll.wait).toNotify.keys ∧ 1 ∉ deadlinePassed.toNotify.keys ∧
    deadlinePassed.Woken (.sched okAll) 1 :=
  have hs : Reachable Lawful deadlinePassed :=
    reachable_afterSchedule (Exec.boot_initial Nat) (by decide)
  have he : deadlinePassed.step (.sched okAll) = some (deadlinePassed.waitPass okAll.wait) := rfl
  have ht : 1 ∈ (deadlinePassed.waitPass okAll.wait).toNotify.keys := by decide
  have hnew : 1 ∉ deadlinePassed.toNotify.keys := by decide
  ⟨hs, he, ht, hnew, tasks_woken_only_for_cause hs he ht hnew⟩

/-- **No deadline and no completion is dropped without readying its task.** From every reachable
state, whatever the kernel answers and whatever the tasks do: a deadline a step removes from
`notify_when` had elapsed, and its task is in the ready set after the step; a completion a step
removes from the completion queues, other than one of the reserved close record, is of an I/O
record whose task is in the ready set after the step. -/
theorem deadlines_and_completions_wake_their_tasks {Adm : Exec α → Action α → Prop}
    (hs : Reachable Adm s) (he : s.step a = some s') :
    (∀ p ∈ s.notifyWhen.pairs, p ∈ s'.notifyWhen.pairs ∨ p.1 < s.now ∧ p.2 ∈ s'.toNotify.keys) ∧
    ∀ c ∈ s.ring.cq ++ s.dioRing.cq, c.userData ≠ s.closeFileIoId →
      c ∈ s'.ring.cq ++ s'.dioRing.cq ∨ ∃ t, s.io.get c.userData = some t ∧ t ∈ s'.toNotify.keys :=
  ⟨(step_wake hs.taskInv he).deadlines, (step_wake hs.taskInv he).completions⟩

/-- The pass of the wait loop after `deadlineSchedule` drops the root's elapsed deadline. -/
theorem deadlines_and_completions_wake_their_tasks_deadline :
    Reachable Lawful deadlinePassed ∧
    deadlinePassed.step (.sched okAll) = some (deadlinePassed.waitPass okAll.wait) ∧
    (5, 1) ∈ deadlinePassed.notifyWhen.pairs ∧
    (5, 1) ∉ (deadlinePassed.waitPass okAll.wait).notifyWhen.pairs ∧
    (∀ p ∈ deadlinePassed.notifyWhen.pairs, p ∈ (deadlinePassed.waitPass okAll.wait).notifyWhen.pairs ∨
      p.1 < deadlinePassed.now ∧ p.2 ∈ (deadlinePassed.waitPass okAll.wait).toNotify.keys) ∧
    ∀ c ∈ deadlinePassed.ring.cq ++ deadlinePassed.dioRing.cq, c.userData ≠ deadlinePassed.closeFileIoId →
      c ∈ (deadlinePassed.waitPass okAll.wait).ring.cq ++ (deadlinePassed.waitPass okAll.wait).dioRing.cq ∨
        ∃ t, deadlinePassed.io.get c.userData = some t ∧
          t ∈ (deadlinePassed.waitPass okAll.wait).toNotify.keys :=
  have hs : Reachable Lawful deadlinePassed :=
    reachable_afterSchedule (Exec.boot_initial Nat) (by decide)
  have he : deadlinePassed.step (.sched okAll) = some (deadlinePassed.waitPass okAll.wait) := rfl
  ⟨hs, he, by decide, by decide, deadlines_and_completions_wake_their_tasks hs he⟩

end Exec

end Io2Proofs.Executor
