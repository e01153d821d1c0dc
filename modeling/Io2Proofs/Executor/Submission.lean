import Io2Proofs.Executor.Results

/-!
# The order of submission

Each ring is fed from a `VecDeque`: `queue_io` and the `FILES_TO_CLOSE` loop push entries at its
back, and `try_submit_io` pops them from its front into the ring's submission region, which the
kernel takes from the front. So the entries of a ring form one line: those the kernel has taken
and not completed, then those in the submission region, then those on the queue. This module
shows that the line is first in, first out, and loses nothing, over whole runs.

* `Exec.line` — a ring's line; `Exec.queuedBy`, `Exec.completedBy` — what a step adds at its
  back, and the entry the kernel completes;
* `Exec.line_step` — a step only appends to a line and takes out the entry the kernel completes;
* `Exec.submission_in_queue_order` — along every run, each line is a subsequence of the line at
  the start followed by the entries queued along the run, in order, and with the entries the kernel
  completed it is a permutation of them: the kernel is handed a ring's entries in the order they
  were queued, each once, and none is lost.
-/

namespace Io2Proofs.Executor

namespace Exec

variable {α : Type} {s s' : Exec α}

/-- **The line of a ring** (`direct` for the direct ring): the entries the kernel has taken and
not completed, then those in the submission region, then those on the queue. -/
def line (s : Exec α) (direct : Bool) : List Entry :=
  if direct then s.dioRing.pending ++ s.dioQueue else s.ring.pending ++ s.ioQueue

/-- The entries the action appends to a line: the entry `queue_io` tags with its I/O id, and at
the `FILES_TO_CLOSE` loop the close entries of the buffered ring. -/
def queuedBy (direct : Bool) (s : Exec α) : Action α → List Entry
  | .user (.queueIo e d k) => if d = direct then [e.withUserData k] else []
  | .sched _ =>
    if s.pc = .closes ∧ direct = false then
      s.filesToClose.map fun fd => (Opcode.close fd).build.withUserData s.closeFileIoId
    else []
  | _ => []

/-- The entry the kernel completes, if the action is the kernel completing the `i`-th entry in
flight on the ring. -/
def completedBy (direct : Bool) (s : Exec α) : Action α → List Entry
  | .kernel d i _ => if d = direct then ((if d then s.dioRing else s.ring).inflight[i]?).toList else []
  | _ => []

variable (direct : Bool)

/-! ### The scheduler's steps -/

theorem waitPass_line (answer : Submitted) : (s.waitPass answer).line direct = s.line direct := by
  unfold waitPass waitSubmit
  repeat' split
  all_goals first | rfl | simp [line]

/-- `try_submit_io` moves entries from the front of a queue to the back of its ring. -/
theorem submitBoth_line (o : Oracle) (forceDio : Bool) (next : Pc) :
    (s.submitBoth o forceDio next).line direct = s.line direct := by
  unfold submitBoth
  split
  · rename_i hq hd
    cases direct
    · exact (trySubmitIo_conserve hq).1
    · exact (trySubmitIo_conserve hd).1
  · rfl

theorem completeIo_line : s.completeIo.line direct = s.line direct := by
  unfold completeIo
  split
  · rfl
  · split
    · rfl
    · rename_i hdrain
      rw [(drainCqes_frame hdrain).1]
      rfl

/-- A scheduler step appends to the buffered line the close entries of the `FILES_TO_CLOSE`
loop, and otherwise keeps both lines. -/
theorem schedStep_line {o : Oracle} (hs : s.schedStep o = some s') :
    s'.line direct = s.line direct ++ queuedBy direct s (.sched o) := by
  unfold schedStep at hs
  split at hs <;> rename_i hpc <;> cases hs
  case h_11 =>
    cases direct <;> simp [line, queuedBy, hpc, closeFiles]
  all_goals rw [show queuedBy direct s (.sched o) = [] by simp [queuedBy, hpc], List.append_nil]
  · rfl
  · rfl
  · exact waitPass_line direct _
  · unfold drainStart; split <;> rfl
  · unfold pollNext pollTask
    repeat' split
    all_goals rfl
  · unfold afterPoll
    split
    · rfl
    · exact submitBoth_line direct _ _ _
  · exact submitBoth_line direct _ _ _
  · exact completeIo_line direct
  · unfold fireTimers; split <;> rfl

/-! ### The tasks' steps and the kernel -/

/-- `queue_io` appends its entry to the line of the ring it asks for; no other call of the
polled task touches a line. -/
theorem userStep_line {t : Nat} {op : Op α} (hs : s.userStep t op = some s') :
    s'.line direct = s.line direct ++ queuedBy direct s (.user op) := by
  cases op
  case queueIo entry d ioId =>
    simp only [userStep] at hs
    split at hs
    · cases hs
    · cases hs
      unfold CurrentTaskContext.queueIo
      cases d <;> cases direct <;> simp [line, queuedBy]
  all_goals refine Eq.trans ?_ (List.append_nil _).symm
  case takeIoResult ioId => cases hs; unfold CurrentTaskContext.takeIoResult; split <;> rfl
  case notifyWhen w => cases hs; rfl
  case dropFile fd => cases hs; rfl
  all_goals
    have hq := userStep_quiet hs trivial
    simp only [line, hq.ring, hq.dioRing, hq.ioQueue, hq.dioQueue]

/-- Taking out the `i`-th entry and putting it at the back is a permutation. -/
theorem perm_eraseIdx_append {β : Type} {l : List β} {i : Nat} (hi : i < l.length) (r : List β) :
    (l.eraseIdx i ++ r ++ [l[i]]).Perm (l ++ r) := by
  conv_rhs => rw [← List.take_append_drop i l, ← List.getElem_cons_drop l i hi]
  rw [List.eraseIdx_eq_take_drop_succ]
  simpa only [List.append_assoc, List.cons_append] using
    (List.perm_append_singleton l[i] (l.drop (i + 1) ++ r)).append_left (l.take i)

/-- The kernel completing the `i`-th entry in flight on a ring takes that entry out of the ring's
line, and leaves the other line alone. -/
theorem kernelComplete_line {d : Bool} {i : Nat} {res : Int}
    (hs : s.kernelComplete d i res = some s') :
    (s'.line direct).Sublist (s.line direct) ∧
      (s'.line direct ++ completedBy direct s (.kernel d i res)).Perm (s.line direct) := by
  have hpending : ∀ (r : Ring) (hi : i < r.inflight.length),
      (r.complete i res).pending = r.inflight.eraseIdx i ++ r.sq := fun r hi => by
    simp [Ring.complete, Ring.pending, List.getElem?_eq_getElem hi]
  unfold kernelComplete at hs
  cases d <;> simp only [Bool.false_eq_true, if_false, if_true] at hs <;> split at hs <;>
    rename_i hi <;> cases hs <;> cases direct
  all_goals simp only [line, completedBy, Bool.false_eq_true, Bool.true_eq_false, if_false, if_true,
    List.getElem?_eq_getElem hi, Option.toList_some, List.append_nil]
  all_goals first
    | exact ⟨.refl _, .refl _⟩
    | rw [hpending _ hi, Ring.pending]
      exact ⟨((List.eraseIdx_sublist _ i).append_right _).append_right _,
        by simpa only [List.append_assoc] using perm_eraseIdx_append hi (_ ++ _)⟩

/-! ### Steps and runs -/

theorem line_step_of_eq {q : List Entry} (h : s'.line direct = s.line direct ++ q) :
    (s'.line direct).Sublist (s.line direct ++ q) ∧ (s'.line direct ++ []).Perm (s.line direct ++ q) := by
  rw [List.append_nil, h]
  exact ⟨.refl _, .refl _⟩

/-- **A step appends to a line the entries it queues on the ring, and takes out only the entry
the kernel completes.** -/
theorem line_step {a : Action α} (hs : s.step a = some s') :
    (s'.line direct).Sublist (s.line direct ++ queuedBy direct s a) ∧
      (s'.line direct ++ completedBy direct s a).Perm (s.line direct ++ queuedBy direct s a) := by
  cases a with
  | sched o => exact line_step_of_eq direct (schedStep_line direct hs)
  | user op =>
    simp only [step] at hs
    split at hs
    · exact line_step_of_eq direct (userStep_line direct hs)
    · cases hs
  | kernel d i res =>
    rw [show queuedBy direct s (.kernel d i res) = [] from rfl, List.append_nil]
    exact kernelComplete_line direct hs
  | tick d => cases hs; exact line_step_of_eq direct (List.append_nil _).symm

/-- **Submission is first in, first out, and loses nothing.** Along every run, whatever the
kernel answers and whatever the tasks do, the line of each ring (the entries in flight, then
those in the submission region, then those on the queue) is a subsequence of the line at the
start followed by the entries queued on the ring along the run, in the order they were queued;
and the line with the entries the kernel completed is a permutation of them. So the kernel is
handed the entries of a ring in the order they were queued, each exactly once, and an entry
leaves the line only when the kernel completes it. -/
theorem submission_in_queue_order {ok : Exec α → Action α → Prop} [∀ s a, Decidable (ok s a)] :
    ∀ {acts : List (Action α)} {s s' : Exec α}, runActs ok acts s = some s' →
      (s'.line direct).Sublist (s.line direct ++ along (queuedBy direct) acts s) ∧
      (s'.line direct ++ along (completedBy direct) acts s).Perm
        (s.line direct ++ along (queuedBy direct) acts s)
  | [], s, s', h => by cases h; exact ⟨List.sublist_append_left _ _, .refl _⟩
  | a :: rest, s, s', h => by
    obtain ⟨s₁, -, ha, h⟩ := runActs_cons_eq_some h
    obtain ⟨ihs, ihp⟩ := submission_in_queue_order h
    obtain ⟨hs₁, hp₁⟩ := line_step direct ha
    simp only [along, ha, Option.map_some', Option.getD_some]
    refine ⟨ihs.trans (by simpa only [List.append_assoc] using hs₁.append_right _), ?_⟩
    rw [List.perm_iff_count] at ihp hp₁ ⊢
    intro x
    have := ihp x
    have := hp₁ x
    simp only [List.count_append] at *
    omega

/-- Along `takeSchedule`, the root's read joins the buffered line, is handed to the kernel and
completed, and the line is empty again. -/
theorem submission_in_queue_order_read :
    runActs KeepsContract (takeSchedule.map Move.act) (Exec.boot Nat) = some tookState ∧
    along (queuedBy false) (takeSchedule.map Move.act) (Exec.boot Nat) = [rootRead.withUserData 1] ∧
    along (completedBy false) (takeSchedule.map Move.act) (Exec.boot Nat) =
      [rootRead.withUserData 1] ∧
    tookState.line false = [] ∧
    (tookState.line false).Sublist
      ((Exec.boot Nat).line false ++ along (queuedBy false) (takeSchedule.map Move.act) (Exec.boot Nat)) ∧
    (tookState.line false ++ along (completedBy false) (takeSchedule.map Move.act) (Exec.boot Nat)).Perm
      ((Exec.boot Nat).line false ++ along (queuedBy false) (takeSchedule.map Move.act) (Exec.boot Nat)) :=
  have h : runActs KeepsContract (takeSchedule.map Move.act) (Exec.boot Nat) = some tookState := rfl
  ⟨h, by decide, by decide, by decide, submission_in_queue_order false h⟩

end Exec

end Io2Proofs.Executor
