import Io2Proofs.Executor.Step

/-!
# Drains within the budget strand nothing

The drain moves the ready set into `notifying` and pops ids from it until it is empty. The
`break` on `start.elapsed() > preempt_duration` is the only way out of the drain that can leave
ids in `notifying`, and nothing reads `notifying` again before the ready set fills
(`Executor.Preemption` shows a task stranded that way). Here is the other half: when the check
after each poll finds the iteration within the budget, `notifying` is empty whenever the loop
is outside the drain, so the loop reaches its idle check and its `'wait` loop with no task
left to poll.

* `Exec.WithinBudget` — the scheduler's check after a poll does not take the `break`;
* `Pc.Outside`, `Exec.DrainInv` — outside the drain (and before a panic), `notifying` is empty;
* `Exec.DrainInv.step` — every step within the budget keeps `Exec.DrainInv`;
* `Exec.waits_with_nothing_ready` — in every state reached by steps within the budget,
  `notifying` is empty outside the drain, so the loop at its idle check or in its `'wait` loop
  has no id left in it.
-/

namespace Io2Proofs.Executor

/-- The positions of the loop outside the drain, before a panic: there `notifying` should be
empty. The drain is the popping of an id, the poll of its task and the check after the poll. -/
def Pc.Outside : Pc → Prop
  | .polling | .running _ | .polled | .panicked => False
  | _ => True

namespace Exec

variable {α : Type} {s s' : Exec α}

/-- The check after a poll, `if start.elapsed() > preempt_duration { break }`, finds the
iteration within the budget. Only the scheduler's step after a poll is constrained. -/
def WithinBudget (s : Exec α) : Action α → Prop
  | .sched _ => s.pc = .polled → s.now - s.start ≤ s.preemptDuration
  | _ => True

instance (s : Exec α) : (a : Action α) → Decidable (s.WithinBudget a)
  | .sched _ => inferInstanceAs (Decidable (_ → _))
  | .user _ | .kernel _ _ _ | .tick _ => inferInstanceAs (Decidable True)

/-- **Outside the drain, `notifying` is empty.** -/
def DrainInv (s : Exec α) : Prop := s.pc.Outside → s.notifying = []

/-- **Every step within the budget keeps `notifying` empty outside the drain**: the drain
starts only by filling `notifying`, pops an id before each poll, and leaves only once
`notifying` is empty; no other step touches it. -/
theorem DrainInv.step (h : s.DrainInv) {a : Action α} (hb : s.WithinBudget a)
    (hs : s.step a = some s') : s'.DrainInv := by
  cases a with
  | sched o =>
    change s.schedStep o = some s' at hs
    unfold schedStep at hs
    split at hs <;> rename_i hpc <;> cases hs
    case h_5.refl =>
      unfold pollNext pollTask
      split
      · rename_i hnone
        exact fun _ => List.getLast?_eq_none_iff.1 hnone
      · repeat' split
        all_goals exact fun hout => absurd hout (by simp only [hpc, Pc.Outside, not_false_eq_true])
    case h_7.refl =>
      unfold afterPoll submitBoth
      rw [if_neg (Nat.not_lt.2 (hb hpc))]
      split <;> exact fun hout => absurd hout (by simp only [goto, Pc.Outside, not_false_eq_true])
    all_goals have hn := h (by rw [hpc]; trivial)
    · exact fun _ => hn
    · exact fun _ => hn
    · unfold waitPass waitSubmit
      repeat' split
      all_goals exact fun _ => hn
    · unfold drainStart
      split
      · exact fun _ => hn
      · exact fun hout => absurd hout (by simp only [Pc.Outside, not_false_eq_true])
    · unfold submitBoth; split <;> exact fun _ => hn
    · unfold completeIo
      split
      · exact fun _ => hn
      · split
        · exact fun _ => hn
        · rename_i hdrain
          rw [(drainCqes_frame hdrain).1]
          exact fun _ => hn
    · unfold fireTimers; split <;> exact fun _ => hn
    · exact fun _ => hn
  | user op =>
    simp only [Exec.step] at hs
    split at hs
    · rename_i t hpc
      intro hout
      rcases userStep_pc hs with hp | hp <;> rw [hp] at hout
      · rw [hpc] at hout; exact hout.elim
      · exact hout.elim
    · cases hs
  | kernel d i res =>
    change s.kernelComplete d i res = some s' at hs
    unfold kernelComplete at hs
    split at hs <;> split at hs <;> cases hs <;> exact h
  | tick d => cases hs; exact h

theorem DrainInv.init (hi : s.Initial) : s.DrainInv := fun _ => hi.notifying

/-- **Within the budget, the loop never waits with a task left to poll.** In every state
reached from the state `run` starts its loop in by steps whose check after each poll finds the
iteration within the preemption budget, whatever the kernel answers and whatever the tasks do,
`notifying` is empty at every position of the loop outside the drain; in particular the loop at
its idle check or in its `'wait` loop has no id left in `notifying`. -/
theorem waits_with_nothing_ready {Adm : Exec α → Action α → Prop}
    (hadm : ∀ s a, Adm s a → s.WithinBudget a) (hs : Reachable Adm s) :
    (s.pc.Outside → s.notifying = []) ∧ (s.pc = .idle ∨ s.pc = .wait → s.notifying = []) :=
  have hinv : s.DrainInv :=
    Reachable.induction (fun _ hi => DrainInv.init hi)
      (fun _ _ _ _ h ha he => h.step (hadm _ _ ha) he) hs
  ⟨hinv, fun hw => hinv (by rcases hw with hw | hw <;> rw [hw] <;> trivial)⟩

/-- The root spawns the child `2` and returns `Pending`; the next iteration drains the ready
set, polls `2`, which returns `Pending`, and the loop enters its `'wait` loop. -/
def budgetSchedule : List (Move Nat) :=
  [.sched, .sched, .sched, .sched, .user (.spawn 2), .user .pending] ++ List.replicate 10 .sched ++
    [.user .pending] ++ List.replicate 8 .sched

/-- The state after `budgetSchedule`. -/
def waitingState : Exec Nat := afterSchedule budgetSchedule (Exec.boot Nat)

/-- The loop waits after draining `2`, with nothing left in `notifying`. -/
theorem waits_with_nothing_ready_after_spawn :
    runActs WithinBudget (budgetSchedule.map Move.act) (Exec.boot Nat) = some waitingState ∧
    waitingState.pc = .wait ∧
    (waitingState.pc.Outside → waitingState.notifying = []) ∧
    (waitingState.pc = .idle ∨ waitingState.pc = .wait → waitingState.notifying = []) :=
  have h : runActs WithinBudget (budgetSchedule.map Move.act) (Exec.boot Nat) = some waitingState :=
    rfl
  ⟨h, by decide, waits_with_nothing_ready (fun _ _ h => h)
    (runActs_reachable (.init (Exec.boot_initial Nat)) (fun _ _ _ h => h) h)⟩

end Exec

end Io2Proofs.Executor
