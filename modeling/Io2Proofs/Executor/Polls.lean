import Io2Proofs.Executor.Results

/-!
# A task is polled only when made ready

`run` polls a task only after popping its id from `notifying`, which the drain fills from the
ready set `to_notify`; and an id enters the ready set only when a step adds it there, for one of
the reasons `Exec.Woken` lists. So every poll the scheduler starts uses up an id that was made
ready.

* `VecMap.Grows` — a map whose keys are the old ones followed by new keys only: what `insert`,
  `notify_timers` and the completion drain do to the ready set;
* `Exec.readyIds` — the ids waiting for a poll, `notifying` then the ready set; `Exec.polledBy`,
  `Exec.wokenBy` — the task a step starts polling, and the ids it adds to the ready set;
* `Exec.readyIds_step` — a step adds to the waiting ids only what it adds to the ready set, and
  the task it starts polling was waiting;
* `Exec.polls_only_when_made_ready` — along every run, the polls the scheduler starts are, as a
  multiset, among the ids waiting at the start and those added to the ready set along the run: no
  task is polled more often than it was made ready.
-/

namespace Io2Proofs.Executor

namespace VecMap

variable {K V : Type} {m m' m'' : VecMap K V}

/-- The keys of `m'` are those of `m`, in order, followed by keys `m` does not have. -/
def Grows (m m' : VecMap K V) : Prop := ∃ added, m'.keys = m.keys ++ added ∧ ∀ k ∈ added, k ∉ m.keys

theorem Grows.refl (m : VecMap K V) : m.Grows m := ⟨[], by simp, nofun⟩

theorem Grows.trans (h : m.Grows m') (h' : m'.Grows m'') : m.Grows m'' := by
  obtain ⟨a, ha, hn⟩ := h
  obtain ⟨a', ha', hn'⟩ := h'
  refine ⟨a ++ a', by rw [ha', ha, List.append_assoc], fun k hk => ?_⟩
  rcases List.mem_append.1 hk with hk | hk
  · exact hn k hk
  · exact fun hm => hn' k hk (ha ▸ List.mem_append_left _ hm)

variable [DecidableEq K]

theorem grows_insert (m : VecMap K V) (k : K) (v : V) : m.Grows (m.insert k v) := by
  by_cases hk : k ∈ m.keys
  · exact ⟨[], by rw [keys_insert, if_pos hk, List.append_nil], nofun⟩
  · exact ⟨[k], by rw [keys_insert, if_neg hk], by simpa using hk⟩

/-- The keys added are those of `m'` that `m` does not have. -/
theorem Grows.keys_eq (h : m.Grows m') : m'.keys = m.keys ++ m'.keys.filter (· ∉ m.keys) := by
  obtain ⟨a, ha, hn⟩ := h
  rw [ha, List.filter_append, List.filter_eq_nil_iff.2 (by simp),
    List.filter_eq_self.2 (by simpa using hn), List.nil_append]

end VecMap

/-- `notify_timers` only adds ids to the ready set. -/
theorem notifyLoop_grows (time : Nat) : ∀ {fuel i : Nat} {nw nw' : NotifyWhen}
    {tn tn' : VecMap Nat Unit}, notifyLoop time fuel i nw tn = some (nw', tn') → tn.Grows tn'
  | 0, _, _, _, _, _, h => by simp [notifyLoop] at h
  | fuel + 1, i, nw, nw', tn, tn', h => by
    simp only [notifyLoop] at h
    split at h
    · cases h; exact .refl _
    · split at h
      · exact notifyLoop_grows time h
      · split at h
        · cases h
        · exact (VecMap.grows_insert _ _ _).trans (notifyLoop_grows time h)

namespace Exec

variable {α : Type} {s s' : Exec α} {a : Action α}

/-- The completion drain only adds ids to the ready set. -/
theorem drainCqes_grows : ∀ {l : List Cqe} {s s' : Exec α}, drainCqes l s = some s' →
    s.toNotify.Grows s'.toNotify
  | [], _, _, h => by cases h; exact .refl _
  | c :: rest, s, s', h => by
    simp only [drainCqes] at h
    split at h
    · split at h
      · cases h
      · exact (drainCqes_grows h :)
    · split at h
      · cases h
      · exact (VecMap.grows_insert _ _ _).trans (drainCqes_grows h)

/-- **The ids waiting for a poll**: `notifying`, then the ready set. -/
def readyIds (s : Exec α) : List Nat := s.notifying ++ s.toNotify.keys

/-- The task the step starts polling: at the drain, the scheduler pops the task's id from
`notifying` and hands the loop to it. -/
def polledBy (s : Exec α) (a : Action α) : List Nat :=
  match s.pc, (s.step a).map Exec.pc with
  | .polling, some (.running t) => [t]
  | _, _ => []

/-- The ids the step adds to the ready set. -/
def wokenBy (s : Exec α) (a : Action α) : List Nat :=
  match s.step a with
  | some s' => s'.toNotify.keys.filter (· ∉ s.toNotify.keys)
  | none => []

theorem polledBy_of_not_polling (h : s.pc ≠ .polling) : s.polledBy a = [] := by
  unfold polledBy; split <;> simp_all

/-- A step that keeps `notifying` and only adds to the ready set. -/
theorem readyIds_of_grows (hn : s'.notifying = s.notifying) (hg : s.toNotify.Grows s'.toNotify) :
    (s'.readyIds ++ []).Subperm (s.readyIds ++ s'.toNotify.keys.filter (· ∉ s.toNotify.keys)) := by
  rw [List.append_nil, readyIds, readyIds, hn, List.append_assoc, ← hg.keys_eq]

theorem waitSubmit_ready (answer : Submitted) :
    (s.waitSubmit answer).notifying = s.notifying ∧ (s.waitSubmit answer).toNotify = s.toNotify := by
  unfold waitSubmit
  repeat' split
  all_goals exact ⟨rfl, rfl⟩

theorem polledBy_of_pc (hs : s.step a = some s') (h : s'.pc = s.pc) : s.polledBy a = [] := by
  unfold polledBy
  rw [hs, Option.map_some', h]
  split <;> simp_all

/-! ### The scheduler's steps -/

/-- The poll pops the task it polls from `notifying`, or skips an id whose task is gone or is
the close-file task. -/
theorem pollNext_readyIds (hpc : s.pc = .polling) (hs : s.step (.sched o) = some s.pollNext) :
    (s.pollNext.readyIds ++ s.polledBy (.sched o)).Subperm
      (s.readyIds ++ s.pollNext.toNotify.keys.filter (· ∉ s.toNotify.keys)) := by
  have hnil : s.toNotify.keys.filter (· ∉ s.toNotify.keys) = [] :=
    List.filter_eq_nil_iff.2 fun x hx => by simp [hx]
  simp only [polledBy, hpc, hs, Option.map_some']
  unfold pollNext
  cases hl : s.notifying.getLast? with
  | none => simp only [goto]; exact readyIds_of_grows rfl (.refl _)
  | some t =>
    have hsplit : s.notifying = s.notifying.dropLast ++ [t] :=
      (List.dropLast_append_getLast? t (by simp [hl])).symm
    have hdrop : (s.notifying.dropLast ++ s.toNotify.keys).Subperm (s.readyIds ++ []) := by
      rw [List.append_nil, readyIds]
      exact ((List.dropLast_sublist _).append_right _).subperm
    dsimp only
    unfold pollTask
    split
    · rw [hnil]; simpa [readyIds, hpc] using hdrop
    · split
      · rw [hnil]; simpa [readyIds] using hdrop
      · show ((s.notifying.dropLast ++ s.toNotify.keys) ++ [t]).Subperm
          ((s.notifying ++ s.toNotify.keys) ++ s.toNotify.keys.filter (· ∉ s.toNotify.keys))
        rw [hnil, List.append_nil]
        conv_rhs => rw [hsplit]
        exact List.subperm_ext_iff.2 fun x _ => by simp only [List.count_append]; omega

/-- A scheduler step: the drain moves the ready set into `notifying`, the poll pops the task it
polls, `notify_timers` and the completion drain add to the ready set, and the other steps leave
both alone. -/
theorem schedStep_readyIds {o : Oracle} (hs : s.schedStep o = some s') :
    (s'.readyIds ++ s.polledBy (.sched o)).Subperm
      (s.readyIds ++ s'.toNotify.keys.filter (· ∉ s.toNotify.keys)) := by
  have hstep : s.step (.sched o) = some s' := hs
  unfold schedStep at hs
  split at hs <;> rename_i hpc <;> cases hs
  case h_5 => exact pollNext_readyIds hpc hstep
  all_goals rw [polledBy_of_not_polling (by simp [hpc])]
  · exact readyIds_of_grows rfl (.refl _)
  · exact readyIds_of_grows rfl (.refl _)
  · unfold waitPass
    split
    · split
      · exact readyIds_of_grows rfl (.refl _)
      · rename_i heq
        obtain ⟨hn, ht⟩ := waitSubmit_ready (s := { s with notifyWhen := _, toNotify := _ }) o.wait
        exact readyIds_of_grows hn (ht ▸ notifyLoop_grows _ heq)
    · exact readyIds_of_grows rfl (.refl _)
  · unfold drainStart
    split
    · exact readyIds_of_grows rfl (.refl _)
    · simpa [readyIds, VecMap.empty, VecMap.keys] using List.Subperm.refl (s.notifying ++ s.toNotify.keys)
  · unfold afterPoll submitBoth
    repeat' split
    all_goals exact readyIds_of_grows rfl (.refl _)
  · unfold submitBoth
    split <;> exact readyIds_of_grows rfl (.refl _)
  · unfold completeIo
    split
    · exact readyIds_of_grows rfl (.refl _)
    · split
      · exact readyIds_of_grows rfl (.refl _)
      · rename_i hdrain
        have e := (drainCqes_frame hdrain).1
        exact readyIds_of_grows (by rw [e]; rfl) (drainCqes_grows hdrain :)
  · unfold fireTimers
    split
    · exact readyIds_of_grows rfl (.refl _)
    · exact readyIds_of_grows rfl (notifyLoop_grows _ ‹_›)
  · exact readyIds_of_grows rfl (.refl _)

/-! ### The tasks' steps, and runs -/

/-- The polled task's steps keep `notifying` and only add to the ready set: `spawn` the child,
`yield_if_needed` the task itself, and a child's wrapper its caller. -/
theorem userStep_ready {t : Nat} {op : Op α} (hs : s.userStep t op = some s') :
    s'.notifying = s.notifying ∧ s.toNotify.Grows s'.toNotify := by
  cases op
  case queueIo entry d ioId =>
    simp only [userStep] at hs
    split at hs
    · cases hs
    · cases hs; unfold CurrentTaskContext.queueIo; split <;> exact ⟨rfl, .refl _⟩
  case takeIoResult ioId =>
    cases hs; unfold CurrentTaskContext.takeIoResult; split <;> exact ⟨rfl, .refl _⟩
  case spawn child =>
    simp only [userStep] at hs
    split at hs
    · cases hs
    · cases hs; exact ⟨rfl, VecMap.grows_insert _ _ _⟩
  case yieldIfNeeded =>
    cases hs
    unfold CurrentTaskContext.yieldIfNeeded
    split
    · exact ⟨rfl, .refl _⟩
    · exact ⟨rfl, VecMap.grows_insert _ _ _⟩
  case pollJoin out =>
    simp only [userStep] at hs
    split at hs
    · cases hs; rw [pollJoin_eq]; split <;> exact ⟨rfl, .refl _⟩
    · cases hs
  case ready v =>
    cases hs
    unfold finishTask storeOutput
    split
    · exact ⟨rfl, .refl _⟩
    · exact ⟨rfl, VecMap.grows_insert _ _ _⟩
    · exact ⟨rfl, .refl _⟩
  all_goals cases hs; exact ⟨rfl, .refl _⟩

/-- **A step adds to the waiting ids only the ids it adds to the ready set, and the task it
starts polling was waiting.** -/
theorem readyIds_step (hs : s.step a = some s') :
    (s'.readyIds ++ s.polledBy a).Subperm
      (s.readyIds ++ s'.toNotify.keys.filter (· ∉ s.toNotify.keys)) := by
  have hstep := hs
  cases a with
  | sched o => exact schedStep_readyIds hs
  | user op =>
    simp only [step] at hs
    split at hs
    · rename_i t hpc
      rw [polledBy_of_not_polling (by simp [hpc])]
      exact readyIds_of_grows (userStep_ready hs).1 (userStep_ready hs).2
    · cases hs
  | kernel d i res =>
    simp only [step, kernelComplete] at hs
    split at hs <;> split at hs <;> cases hs <;> rw [polledBy_of_pc hstep rfl] <;>
      exact readyIds_of_grows rfl (.refl _)
  | tick d => cases hs; rw [polledBy_of_pc hstep rfl]; exact readyIds_of_grows rfl (.refl _)

/-- **No task is polled more often than it was made ready.** Along every run, whatever the
kernel answers and whatever the tasks do, the ids waiting for a poll at the end (in `notifying`
or in the ready set) and the tasks the scheduler started polling along the run are, as a
multiset, among the ids waiting at the start and those the steps of the run added to the ready
set. -/
theorem polls_only_when_made_ready {ok : Exec α → Action α → Prop} [∀ s a, Decidable (ok s a)] :
    ∀ {acts : List (Action α)} {s s' : Exec α}, runActs ok acts s = some s' →
      (s'.readyIds ++ along polledBy acts s).Subperm (s.readyIds ++ along wokenBy acts s)
  | _, _, _, h => by
    refine along_subperm readyIds polledBy wokenBy (P := fun _ => True) (fun _ hs => ?_)
      (fun _ _ _ _ => trivial) trivial h
    simpa only [wokenBy, hs] using readyIds_step hs

/-- Along `takeSchedule` the root is polled twice: at the first iteration, for it is ready when
the loop starts, and again after the drain made it ready for its read's completion. -/
theorem polls_only_when_made_ready_read :
    runActs KeepsContract (takeSchedule.map Move.act) (Exec.boot Nat) = some tookState ∧
    (Exec.boot Nat).readyIds = [1] ∧
    along polledBy (takeSchedule.map Move.act) (Exec.boot Nat) = [1, 1] ∧
    along wokenBy (takeSchedule.map Move.act) (Exec.boot Nat) = [1] ∧
    (tookState.readyIds ++ along polledBy (takeSchedule.map Move.act) (Exec.boot Nat)).Subperm
      ((Exec.boot Nat).readyIds ++ along wokenBy (takeSchedule.map Move.act) (Exec.boot Nat)) :=
  have h : runActs KeepsContract (takeSchedule.map Move.act) (Exec.boot Nat) = some tookState := rfl
  ⟨h, rfl, by decide, by decide, polls_only_when_made_ready h⟩

end Exec

end Io2Proofs.Executor
