import Io2Proofs.Executor.Lifecycle
import Mathlib.Data.List.Perm.Subperm

/-!
# Where a result comes from

A task learns how its operation ended from `take_io_result`, which hands over what the
completion drain posted in `io_results` under the operation's I/O id. The drain posts the result
of each completion under the completion's user data, and the kernel posts a completion carrying
the user data of the entry it completes. This module follows the results along that path over
whole runs.

* `Exec.heldResults` — the results the executor holds: posted, or in a completion not drained;
* `Exec.along` — what an observation records of each step of a run: here the completions the
  kernel posts (`Exec.reportedBy`) and the results the polled task takes (`Exec.takenBy`);
* `Exec.heldResults_step` — a step only takes results out (the polled task taking one, the drain
  dropping the completions of the reserved close record) and adds only what the kernel reports;
* `Exec.results_taken_once_from_kernel` — along every run, the results held at the end and those
  taken are a sub-multiset of those held at the start and those the kernel reported: a task
  takes only a result the kernel reported for an entry carrying the task's I/O id, and no report
  is taken twice.
-/

namespace Io2Proofs.Executor

namespace VecMap

variable {K V : Type} [DecidableEq K] {m : VecMap K V} {k : K}

theorem insert_entries_of_not_mem (h : k ∉ m.keys) (v : V) :
    (m.insert k v).entries = m.entries ++ [(k, v)] := by
  simp only [insert, if_neg h]

theorem mem_entries_of_get? {v : V} (h : m.get? k = some v) : (k, v) ∈ m.entries := by
  simp only [get?, Option.map_eq_some'] at h
  obtain ⟨p, hp, rfl⟩ := h
  have hk : p.1 = k := by simpa using List.find?_some hp
  exact hk ▸ List.mem_of_find?_eq_some hp

/-- `remove(&k)` of a present key takes out its pair, and nothing else that is not of the key. -/
theorem remove_subperm {v : V} (h : m.get? k = some v) :
    ((m.remove k).2.entries ++ [(k, v)]).Subperm m.entries := by
  have hmem : (k, v) ∈ m.entries.filter fun p => !decide (p.1 ≠ k) :=
    List.mem_filter.2 ⟨mem_entries_of_get? h, by simp⟩
  exact ((List.subperm_append_left _).2 (List.singleton_subperm_iff.2 hmem)).trans
    (List.filter_append_perm _ _).subperm

end VecMap

/-- The result a completion carries, under the user data of the entry it completes. -/
def Cqe.toResult (c : Cqe) : Nat × Int := (c.userData, c.result)

namespace Exec

variable {α : Type} {s s' : Exec α}

/-- **The results the executor holds**: every `(io_id, result)` of `io_results`, then the result
of every completion not yet drained, of the buffered ring and then of the direct ring. -/
def heldResults (s : Exec α) : List (Nat × Int) :=
  s.ioResults.entries ++ (s.ring.cq ++ s.dioRing.cq).map Cqe.toResult

/-- The completion the kernel posts, if the action is the kernel completing the `i`-th entry in
flight on a ring: the entry's user data and the result. -/
def reportedBy (s : Exec α) : Action α → List (Nat × Int)
  | .kernel dio i res =>
    ((if dio then s.dioRing else s.ring).inflight[i]?.map fun e => (e.userData, res)).toList
  | _ => []

/-- The result the polled task takes, if the action is `take_io_result(k)` of a posted id. -/
def takenBy (s : Exec α) : Action α → List (Nat × Int)
  | .user (.takeIoResult k) => ((s.ioResults.get? k).map fun r => (k, r)).toList
  | _ => []

/-- What the observation `f` records of each step along the actions `acts` from `s`, in order. -/
def along {β : Type} (f : Exec α → Action α → List β) : List (Action α) → Exec α → List β
  | [], _ => []
  | a :: acts, s => f s a ++ ((s.step a).map (along f acts)).getD []

/-- **A step-wise count lifts to runs.** If, from every state where `P` holds, what the
observation `g` records of a step together with the quantity `f` after it is among `f` before it
and what `h` records, then the same holds along every run that keeps `P`. -/
theorem along_subperm {β : Type} [DecidableEq β] {P : Exec α → Prop}
    {ok : Exec α → Action α → Prop} [∀ s a, Decidable (ok s a)] (f : Exec α → List β)
    (g h : Exec α → Action α → List β)
    (hstep : ∀ {s s' : Exec α} {a : Action α}, P s → s.step a = some s' →
      (f s' ++ g s a).Subperm (f s ++ h s a)) :
    ∀ {acts : List (Action α)} {s s' : Exec α},
      (∀ {s s' : Exec α} {a : Action α}, a ∈ acts → ok s a → P s → s.step a = some s' → P s') →
      P s → runActs ok acts s = some s' → (f s' ++ along g acts s).Subperm (f s ++ along h acts s)
  | [], s, s', _, _, hr => by cases hr; exact .refl _
  | a :: rest, s, s', hP, hs, hr => by
    obtain ⟨s₁, hok, ha, hr⟩ := runActs_cons_eq_some hr
    have ih := (along_subperm f g h hstep (fun hm => hP (List.mem_cons_of_mem _ hm))
      (hP (List.mem_cons_self _ _) hok hs ha) hr).count_le
    have h₁ := (hstep hs ha).count_le
    simp only [along, ha, Option.map_some', Option.getD_some]
    refine List.subperm_ext_iff.2 fun x _ => ?_
    have := ih x
    have := h₁ x
    simp only [List.count_append] at *
    omega

/-! ### The completion drain -/

/-- The drain posts the results of the completions other than the reserved close's, in order,
as new pairs of the result table. -/
theorem drainCqes_entries : ∀ {l : List Cqe} {s s' : Exec α}, drainCqes l s = some s' →
    ((l.map Cqe.userData).filter (· ≠ s.closeFileIoId) ++ s.ioResults.keys).Nodup →
    s'.ioResults.entries =
      s.ioResults.entries ++ (l.filter (·.userData ≠ s.closeFileIoId)).map Cqe.toResult
  | [], s, s', h, _ => by cases h; simp
  | c :: rest, s, s', h, hnd => by
    simp only [drainCqes] at h
    split at h
    · rename_i hc
      split at h
      · cases h
      · simpa [hc] using drainCqes_entries h (by simpa [hc] using hnd)
    · rename_i hc
      split at h
      · cases h
      · have hnd' : (c.userData :: ((rest.map Cqe.userData).filter (· ≠ s.closeFileIoId) ++
            s.ioResults.keys)).Nodup := by simpa [hc] using hnd
        have hnew : c.userData ∉ s.ioResults.keys :=
          fun hm => (List.nodup_cons.mp hnd').1 (by simp [hm])
        rw [drainCqes_entries h ?_]
        · simp [VecMap.insert_entries_of_not_mem hnew, hc, Cqe.toResult]
        · rw [VecMap.keys_insert, if_neg hnew, ← List.append_assoc]
          exact (List.perm_append_singleton c.userData _).nodup_iff.mpr hnd'

/-! ### The scheduler's steps -/

theorem submitBoth_heldResults (o : Oracle) (forceDio : Bool) (next : Pc) :
    (s.submitBoth o forceDio next).heldResults = s.heldResults := by
  unfold submitBoth
  split
  · rename_i hq hd
    simp only [heldResults, (trySubmitIo_conserve hq).2, (trySubmitIo_conserve hd).2]
  · rfl

/-- The drain moves the completions it finds into the result table, but for those of the
reserved close record, which it drops. -/
theorem completeIo_heldResults (h : IoInv s) : s.completeIo.heldResults.Sublist s.heldResults := by
  unfold completeIo
  split
  · exact .refl _
  · split
    · exact .refl _
    · rename_i s'' hdrain
      have e := (drainCqes_frame hdrain).1
      have hcq : s''.ring.cq ++ s''.dioRing.cq = [] := by rw [e]; rfl
      show (s''.ioResults.entries ++ (s''.ring.cq ++ s''.dioRing.cq).map Cqe.toResult).Sublist _
      rw [hcq, drainCqes_entries hdrain h.drain_nodup, List.map_nil, List.append_nil]
      exact ((List.filter_sublist _).map _).append_left _

/-- A scheduler step holds no result it did not hold. -/
theorem schedStep_heldResults (h : IoInv s) {o : Oracle} (hs : s.schedStep o = some s') :
    s'.heldResults.Sublist s.heldResults := by
  unfold schedStep at hs
  split at hs <;> cases hs
  · exact .refl _
  · exact .refl _
  · unfold waitPass waitSubmit
    repeat' split
    all_goals exact .refl _
  · unfold drainStart; split <;> exact .refl _
  · unfold pollNext pollTask
    repeat' split
    all_goals exact .refl _
  · unfold afterPoll
    split
    · exact .refl _
    · exact submitBoth_heldResults (s := s) o false .polling ▸ .refl _
  · exact submitBoth_heldResults (s := s) o true .complete ▸ .refl _
  · exact completeIo_heldResults h
  · unfold fireTimers; split <;> exact .refl _
  · exact .refl _

/-! ### The tasks' steps and the kernel -/

theorem subperm_heldResults_of_eq (h : s'.heldResults = s.heldResults) :
    (s'.heldResults ++ []).Subperm s.heldResults := by
  rw [List.append_nil, h]

/-- A task's step holds no result it did not hold, and `take_io_result` takes its result out. -/
theorem userStep_heldResults {t : Nat} {op : Op α} (hs : s.userStep t op = some s') :
    (s'.heldResults ++ s.takenBy (.user op)).Subperm s.heldResults := by
  cases op
  case takeIoResult k =>
    cases hs
    unfold CurrentTaskContext.takeIoResult
    cases hg : s.ioResults.get? k with
    | none =>
      simp only [VecMap.remove, hg, heldResults, takenBy, Option.map_none', Option.toList_none,
        List.append_nil]
      exact ((List.filter_sublist _).append_right _).subperm
    | some r =>
      have hc := (VecMap.remove_subperm hg).count_le
      simp only [VecMap.remove, hg, heldResults, takenBy, Option.map_some', Option.toList_some]
      refine List.subperm_ext_iff.2 fun x _ => ?_
      have := hc x
      simp only [VecMap.remove, List.count_append] at this ⊢
      omega
  case queueIo entry directIo ioId =>
    simp only [userStep] at hs
    split at hs
    · cases hs
    · cases hs; unfold CurrentTaskContext.queueIo; split <;> exact subperm_heldResults_of_eq rfl
  case notifyWhen w => cases hs; exact subperm_heldResults_of_eq rfl
  case dropFile fd => cases hs; exact subperm_heldResults_of_eq rfl
  all_goals
    have hq := userStep_quiet hs trivial
    exact subperm_heldResults_of_eq (by simp only [heldResults, hq.ioResults, hq.ring, hq.dioRing])

/-- The kernel completing an entry posts a completion with the entry's user data and the result. -/
theorem kernelComplete_heldResults {dio : Bool} {i : Nat} {res : Int}
    (hs : s.kernelComplete dio i res = some s') :
    s'.heldResults.Perm (s.heldResults ++ s.reportedBy (.kernel dio i res)) := by
  unfold kernelComplete at hs
  have hcq : ∀ (r : Ring) (hi : i < r.inflight.length),
      (r.complete i res).cq = r.cq ++ [⟨r.inflight[i].userData, res⟩] := fun r hi => by
    simp [Ring.complete, List.getElem?_eq_getElem hi]
  rw [List.perm_iff_count]
  intro x
  cases dio <;> simp only [Bool.false_eq_true, if_false, if_true] at hs <;> split at hs <;>
    rename_i hi <;> cases hs <;>
    simp only [heldResults, reportedBy, Bool.false_eq_true, if_false, if_true,
      List.getElem?_eq_getElem hi, Option.map_some', Option.toList_some, hcq _ hi, List.map_append,
      List.map_cons, List.map_nil, Cqe.toResult, List.count_append] <;>
    omega

/-! ### Steps and runs -/

/-- **A step holds only results it held and the completion the kernel posts**, and the result
the polled task takes is one it held. -/
theorem heldResults_step (h : IoInv s) {a : Action α} (hs : s.step a = some s') :
    (s'.heldResults ++ s.takenBy a).Subperm (s.heldResults ++ s.reportedBy a) := by
  cases a with
  | sched o =>
    show (_ ++ []).Subperm (_ ++ [])
    simpa only [List.append_nil] using (schedStep_heldResults h hs).subperm
  | user op =>
    simp only [step] at hs
    split at hs
    · show List.Subperm _ (_ ++ [])
      rw [List.append_nil]
      exact userStep_heldResults hs
    · cases hs
  | kernel dio i res =>
    show (_ ++ []).Subperm _
    rw [List.append_nil]
    exact (kernelComplete_heldResults hs).subperm
  | tick d => cases hs; exact .refl _

/-- Along a run, the results held at its end and those taken are a sub-multiset of those held
at its start and those the kernel reported. -/
theorem heldResults_run {Adm ok : Exec α → Action α → Prop} [∀ s a, Decidable (ok s a)]
    {acts : List (Action α)} (hs : Reachable Adm s) (hadm : ∀ s₀ a, a ∈ acts → ok s₀ a → Adm s₀ a)
    (hr : runActs ok acts s = some s') :
    (s'.heldResults ++ along takenBy acts s).Subperm (s.heldResults ++ along reportedBy acts s) :=
  along_subperm heldResults takenBy reportedBy (fun hs he => heldResults_step hs.ioInv he)
    (fun hm hok hs he => .step hs (hadm _ _ hm hok) he) hs hr

/-- The state `run` starts its loop in holds no result. -/
theorem heldResults_initial (hi : s.Initial) : s.heldResults = [] := by
  simp [heldResults, hi.ioResults, hi.ring.2.2, hi.dioRing.2.2, VecMap.empty]

/-- **A task takes only what the kernel reported, and no report twice.** Along every run from a
reachable state, whatever the kernel answers and whatever the tasks do, the results the executor
holds at the end (posted in `io_results`, or in a completion not drained) and the results
`take_io_result` handed to the tasks are, as a multiset, among the results held at the start and
the completions the kernel posted, each the user data of the entry it completed with its result.
From the state `run` starts its loop in, which holds no result, the results taken are among
those the kernel reported, each taken at most as often as it was reported. -/
theorem results_taken_once_from_kernel {Adm ok : Exec α → Action α → Prop}
    [∀ s a, Decidable (ok s a)] {acts : List (Action α)} (hs : Reachable Adm s)
    (hadm : ∀ s₀ a, a ∈ acts → ok s₀ a → Adm s₀ a) (h : runActs ok acts s = some s') :
    (s'.heldResults ++ along takenBy acts s).Subperm (s.heldResults ++ along reportedBy acts s) ∧
    (s.Initial → (along takenBy acts s).Subperm (along reportedBy acts s)) := by
  have hrun := heldResults_run hs hadm h
  refine ⟨hrun, fun hi => ?_⟩
  rw [heldResults_initial hi, List.nil_append] at hrun
  exact (List.sublist_append_right _ _).subperm.trans hrun

/-- The root queues `rootRead` under the I/O id `1` and returns `Pending`; the read is
submitted, the kernel completes it with `5`, and the drain posts it. The root, polled again,
takes the result and returns. -/
def takeSchedule : List (Move Nat) :=
  readSchedule ++ [.user .pending, .sched, .kernel false 0 5] ++ List.replicate 9 .sched ++
    [.user (.takeIoResult 1), .user (.ready 0)]

/-- The state after `takeSchedule`. -/
def tookState : Exec Nat := afterSchedule takeSchedule (Exec.boot Nat)

theorem results_taken_once_from_kernel_read :
    runActs KeepsContract (takeSchedule.map Move.act) (Exec.boot Nat) = some tookState ∧
    along takenBy (takeSchedule.map Move.act) (Exec.boot Nat) = [(1, 5)] ∧
    along reportedBy (takeSchedule.map Move.act) (Exec.boot Nat) = [(1, 5)] ∧
    (along takenBy (takeSchedule.map Move.act) (Exec.boot Nat)).Subperm
      (along reportedBy (takeSchedule.map Move.act) (Exec.boot Nat)) :=
  have h : runActs KeepsContract (takeSchedule.map Move.act) (Exec.boot Nat) = some tookState := rfl
  ⟨h, by decide, by decide,
    (results_taken_once_from_kernel (.init (Exec.boot_initial Nat)) Move.lawful h).2
      (Exec.boot_initial Nat)⟩

end Exec

end Io2Proofs.Executor
