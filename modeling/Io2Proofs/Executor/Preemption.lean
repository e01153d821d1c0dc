import Io2Proofs.Executor.JoinHandles

/-!
# A drain cut short by the preemption check

`run` moves the ready set into `notifying` and pops ids from it until it is empty, unless
`start.elapsed() > preempt_duration` breaks the loop first. `notifying` outlives the iteration,
but nothing reads it again until the ready set is not empty: the idle check looks at the rings,
the queues, `FILES_TO_CLOSE` and the ready set, and the `'wait` loop leaves only on a completion
or a ready task.

* `Exec.IdleForever` — the `'wait` loop with nothing that can end it: no completion posted or in
  flight, nothing for the direct ring's `submit_and_wait`, no ready task and no deadline;
* `Exec.IdleForever.run` — every run from such a state stays in it, with `notifying` and the
  task table as they are, whatever the kernel answers and however the clock moves;
* a lawful run in which a poll overruns the budget, the loop breaks with a ready task left in
  `notifying`, and the loop reaches such a state: the task is never polled.
-/

namespace Io2Proofs.Executor

namespace Exec

variable {α : Type} {s s' : Exec α}

/-- **The `'wait` loop with nothing that can end it.** -/
structure IdleForever (s : Exec α) : Prop where
  pc : s.pc = .wait
  cq : s.ring.cq = [] ∧ s.dioRing.cq = []
  inflight : s.ring.inflight = [] ∧ s.dioRing.inflight = []
  dioSq : s.dioRing.sq = []
  ready : s.toNotify.keys = []
  deadlines : s.notifyWhen.timer = []

instance : Decidable s.IdleForever :=
  decidable_of_iff (s.pc = .wait ∧ (s.ring.cq = [] ∧ s.dioRing.cq = []) ∧
      (s.ring.inflight = [] ∧ s.dioRing.inflight = []) ∧ s.dioRing.sq = [] ∧
      s.toNotify.keys = [] ∧ s.notifyWhen.timer = [])
    ⟨fun ⟨a, b, c, d, e, f⟩ => ⟨a, b, c, d, e, f⟩, fun ⟨a, b, c, d, e, f⟩ => ⟨a, b, c, d, e, f⟩⟩

namespace IdleForever

/-- The direct ring's `submit_and_wait(0)` has nothing to submit. -/
theorem waitSubmit (h : s.IdleForever) {answer : Submitted} (hv : answer.OkOrBusy) :
    (s.waitSubmit answer).IdleForever ∧ (s.waitSubmit answer).notifying = s.notifying ∧
      (s.waitSubmit answer).tasks = s.tasks := by
  cases answer with
  | ok n =>
    unfold Exec.waitSubmit
    split
    · exact ⟨{ h with
        inflight := ⟨h.inflight.1, by simp [h.inflight.2, h.dioSq]⟩
        dioSq := by simp [h.dioSq] }, rfl, rfl⟩
    · exact ⟨h, rfl, rfl⟩
  | err e =>
    simp only [Exec.waitSubmit, if_pos (show e = ebusy from hv), ite_self, and_self, and_true]
    exact h

/-- **Every step keeps the loop idle**, with `notifying` and the task table as they are. -/
theorem step (h : s.IdleForever) {a : Action α} (ha : s.Valid a) (he : s.step a = some s') :
    s'.IdleForever ∧ s'.notifying = s.notifying ∧ s'.tasks = s.tasks := by
  cases a with
  | sched o =>
    simp only [Exec.step, schedStep, h.pc, Option.some.injEq] at he
    subst he
    unfold waitPass
    rw [if_pos ⟨h.cq.1, h.cq.2, h.ready⟩, notifyTimers_nil _ h.deadlines]
    exact h.waitSubmit ha.2.2
  | user op => simp [Exec.step, h.pc] at he
  | kernel dio i res =>
    cases dio <;> simp [Exec.step, kernelComplete, h.inflight.1, h.inflight.2] at he
  | tick d => cases he; exact ⟨{ h with }, rfl, rfl⟩

/-- **Every run from an idle state stays idle**, with `notifying` and the task table as they
are. -/
theorem run (h : s.IdleForever) (hr : Relation.ReflTransGen (Moves Valid) s s') :
    s'.IdleForever ∧ s'.notifying = s.notifying ∧ s'.tasks = s.tasks := by
  induction hr with
  | refl => exact ⟨h, rfl, rfl⟩
  | tail _ hm ih =>
    obtain ⟨a, ha, he⟩ := hm
    obtain ⟨h', hn, ht⟩ := ih.1.step ha he
    exact ⟨h', hn.trans ih.2.1, ht.trans ih.2.2⟩

end IdleForever

/-- After `rootSpawnsTwo`, the poll of `3` computes past the preemption budget, then awaits the
handle of the cell `0` and returns `Pending`: the loop breaks with `2` in `notifying`, submits,
drains, fires the timers, closes, and from the idle check enters the `'wait` loop. -/
def strandSchedule : List (Move Nat) :=
  rootSpawnsTwo ++ [.tick 11, .user (.pollJoin 0), .user .pending] ++ List.replicate 7 .sched

/-- The state after `strandSchedule`. -/
def strandedState : Exec Nat := afterSchedule strandSchedule (Exec.boot Nat)

/-- A ready task is stranded by a drain cut short: in a lawful run the loop enters the `'wait`
loop while the live task `2`, taken from the ready set, is still in `notifying`; from there
every run, whatever the kernel answers and however the clock moves, stays in the `'wait` loop
with `2` in `notifying`, so `2` is never polled. -/
theorem preempted_drain_strands_ready_task :
    Reachable Lawful strandedState ∧ strandedState.pc = .wait ∧ 2 ∈ strandedState.notifying ∧
      2 ∈ strandedState.tasks ∧
      ∀ s', Relation.ReflTransGen (Moves Valid) strandedState s' →
        s'.pc = .wait ∧ s'.notifying = strandedState.notifying ∧ s'.tasks = strandedState.tasks := by
  have hw : strandedState.IdleForever := by decide
  exact ⟨reachable_afterSchedule (Exec.boot_initial Nat) (by decide), hw.pc, by decide, by decide,
    fun s' hr => (hw.run hr).imp_left IdleForever.pc⟩

end Exec

end Io2Proofs.Executor
