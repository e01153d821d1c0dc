import Io2Proofs.Executor.TaskTable

/-!
# Join handles

`CurrentTaskContext::spawn` shares a cell `Rc<RefCell<Option<T>>>` between the wrapper it
builds around the child and the `JoinHandle` it returns. The wrapper fills the cell when the
child's future returns and notifies the task that called `spawn` (`caller_task_id`), and
`JoinHandle::poll` takes the value out of the cell; it is `Pending` while the cell is empty.

* `Exec.step_cells` — what one step does to the task table and the cells: it keeps them, or
  spawns a child with a new empty cell, or takes a value out of a cell, or a child returns and
  fills its cell;
* `Exec.JoinInv` — the cell of a live child is empty, and no two live children share a cell;
  every step keeps it;
* `Exec.cell_step` — what one step does to one cell, and `Exec.step_ready_spawned` — the polled
  child's `Ready(v)` fills its cell with `v` and readies the task that called `spawn`; from them
  the handle's contract over every step of every run: `Pending` while the child is live; the
  child's `Ready(v)` fills the cell with `v`, readies the task that called `spawn`, and readies no
  other; the first `Ready` poll yields `v`, and every poll after it is `Pending`;
* a run in which a task that waits on the handle of a child it did not spawn is not readied when
  the child returns.
-/

namespace Io2Proofs.Executor

namespace Exec

variable {α : Type} {s s' : Exec α}

/-! ### What a step does to the cells -/

/-- The step leaves the join cells as they are and adds no task. -/
structure KeepsCells (s s' : Exec α) : Prop where
  slots : s'.slots = s.slots
  tasks : ∀ k task, s'.tasks.get k = some task → s.tasks.get k = some task

theorem KeepsCells.of_eq (hs : s'.slots = s.slots) (ht : s'.tasks = s.tasks) : KeepsCells s s' :=
  ⟨hs, fun _ _ hk => ht ▸ hk⟩

theorem SchedFrame.keepsCells (h : SchedFrame s s') : KeepsCells s s' := by
  refine ⟨h.slots, fun k task hk => ?_⟩
  rcases h.tasks with e | ⟨_, _, e⟩
  · rwa [e] at hk
  · rw [e] at hk; exact (Slab.get_remove_some hk).2

/-- **What a step of the polled task `t` does to the task table and the cells.** -/
theorem userStep_cells {t : Nat} {op : Op α} (hs : s.userStep t op = some s') :
    KeepsCells s s' ∨
    (∃ child, op = .spawn child ∧ child ∉ s.tasks ∧
      s'.tasks = s.tasks.insert child (.spawned t s.slots.length) ∧ s'.slots = s.slots ++ [.running]) ∨
    (∃ i v, op = .pollJoin i ∧ s.slots[i]? = some (.filled v) ∧ s'.tasks = s.tasks ∧
      s'.slots = s.slots.set i (.taken v)) ∨
    (∃ c i v, op = .ready v ∧ s.tasks.get t = some (.spawned c i) ∧ s'.tasks = s.tasks.remove t ∧
      s'.slots = s.slots.set i (.filled v) ∧ s'.toNotify = s.toNotify.insert c ()) := by
  cases op with
  | queueIo entry directIo ioId =>
    simp only [userStep] at hs
    split at hs
    · cases hs
    · cases hs; left; unfold CurrentTaskContext.queueIo; split <;> exact .of_eq rfl rfl
  | takeIoResult ioId =>
    cases hs; left; unfold CurrentTaskContext.takeIoResult; split <;> exact .of_eq rfl rfl
  | spawn child =>
    simp only [userStep] at hs
    split at hs
    · cases hs
    · cases hs; exact .inr (.inl ⟨child, rfl, ‹_›, rfl, rfl⟩)
  | yieldIfNeeded =>
    cases hs; left; unfold CurrentTaskContext.yieldIfNeeded; split <;> exact .of_eq rfl rfl
  | pollJoin out =>
    simp only [userStep] at hs
    split at hs
    · rename_i hlt
      cases hs
      rw [pollJoin_eq]
      split
      · rename_i v hv
        rw [Slot.get_eq_some, List.getD_eq_getElem?_getD, List.getElem?_eq_getElem hlt,
          Option.getD_some] at hv
        exact .inr (.inr (.inl ⟨out, v, rfl, by rw [List.getElem?_eq_getElem hlt, hv], rfl, rfl⟩))
      · exact .inl (.of_eq rfl rfl)
    · cases hs
  | ready v =>
    cases hs
    unfold Exec.finishTask
    cases hget : s.tasks.get t with
    | none => exact .inl ⟨rfl, fun _ _ hk => (Slab.get_remove_some hk).2⟩
    | some task =>
      cases task with
      | spawned c i => exact .inr (.inr (.inr ⟨c, i, v, rfl, rfl, rfl, rfl, rfl⟩))
      | _ => exact .inl ⟨rfl, fun _ _ hk => (Slab.get_remove_some hk).2⟩
  | _ => cases hs; exact .inl (.of_eq rfl rfl)

/-- **What a step does to the task table and the cells.** -/
theorem step_cells {a : Action α} (hs : s.step a = some s') :
    KeepsCells s s' ∨
    (∃ t child, a = .user (.spawn child) ∧ child ∉ s.tasks ∧
      s'.tasks = s.tasks.insert child (.spawned t s.slots.length) ∧ s'.slots = s.slots ++ [.running]) ∨
    (∃ i v, a = .user (.pollJoin i) ∧ s.slots[i]? = some (.filled v) ∧ s'.tasks = s.tasks ∧
      s'.slots = s.slots.set i (.taken v)) ∨
    (∃ t c i v, s.pc = .running t ∧ a = .user (.ready v) ∧ s.tasks.get t = some (.spawned c i) ∧
      s'.tasks = s.tasks.remove t ∧ s'.slots = s.slots.set i (.filled v) ∧
      s'.toNotify = s.toNotify.insert c ()) := by
  cases a with
  | sched o => exact .inl (schedStep_frame hs).keepsCells
  | user op =>
    simp only [step] at hs
    split at hs
    · rename_i t hpc
      rcases userStep_cells hs with h | ⟨child, rfl, h⟩ | ⟨i, v, rfl, h⟩ | ⟨c, i, v, rfl, h⟩
      · exact .inl h
      · exact .inr (.inl ⟨t, child, rfl, h⟩)
      · exact .inr (.inr (.inl ⟨i, v, rfl, h⟩))
      · exact .inr (.inr (.inr ⟨t, c, i, v, hpc, rfl, h⟩))
    · cases hs
  | kernel dio i res =>
    simp only [step, kernelComplete] at hs
    split at hs <;> split at hs <;> cases hs <;> exact .inl (.of_eq rfl rfl)
  | tick d => cases hs; exact .inl (.of_eq rfl rfl)

/-! ### The invariant -/

/-- **The join cells' invariant.** -/
structure JoinInv (s : Exec α) : Prop where
  child_cell : ∀ k c i, s.tasks.get k = some (.spawned c i) → s.slots[i]? = some .running
  child_unique : ∀ k k' c c' i, s.tasks.get k = some (.spawned c i) →
    s.tasks.get k' = some (.spawned c' i) → k = k'

namespace JoinInv

theorem init (h : s.Initial) : JoinInv s := by
  obtain ⟨root, -, htasks, -⟩ := h.tasks
  have none_spawned : ∀ k c i, s.tasks.get k ≠ some (.spawned c i) := fun k c i hk => by
    simpa [htasks] using Slab.mem_entries_of_get hk
  exact ⟨fun k c i hk => absurd hk (none_spawned k c i),
    fun k _ c _ i hk => absurd hk (none_spawned k c i)⟩

theorem keeps (h : JoinInv s) (hk : KeepsCells s s') : JoinInv s' where
  child_cell k c i hget := hk.slots ▸ h.child_cell k c i (hk.tasks _ _ hget)
  child_unique k k' c c' i hget hget' :=
    h.child_unique k k' c c' i (hk.tasks _ _ hget) (hk.tasks _ _ hget')

/-- A live child's cell is one of the cells. -/
theorem cell_lt (h : JoinInv s) {k c i : Nat} (hk : s.tasks.get k = some (.spawned c i)) :
    i < s.slots.length :=
  (List.getElem?_eq_some_iff.mp (h.child_cell k c i hk)).1

/-- `spawn` gives the child a new cell. -/
theorem spawn (h : JoinInv s) {t child : Nat} (hfree : child ∉ s.tasks)
    (ht : s'.tasks = s.tasks.insert child (.spawned t s.slots.length))
    (hs : s'.slots = s.slots ++ [.running]) : JoinInv s' := by
  have hget := Slab.get_insert (.spawned t s.slots.length) hfree
  constructor
  · intro k c i hk
    rw [ht, hget] at hk
    split_ifs at hk
    · cases hk; rw [hs]; exact List.getElem?_concat_length _ _
    · rw [hs, List.getElem?_append_left (h.cell_lt hk)]; exact h.child_cell k c i hk
  · intro k k' c c' i hk hk'
    rw [ht, hget] at hk hk'
    split_ifs at hk hk' with h₁ h₂ h₂
    · exact h₁.trans h₂.symm
    · cases hk; exact absurd (h.cell_lt hk') (Nat.lt_irrefl _)
    · cases hk'; exact absurd (h.cell_lt hk) (Nat.lt_irrefl _)
    · exact h.child_unique k k' c c' i hk hk'

/-- A poll takes the value out of a filled cell, which is no live child's. -/
theorem pollJoin (h : JoinInv s) {i : Nat} {v : α} (hv : s.slots[i]? = some (.filled v))
    (ht : s'.tasks = s.tasks) (hs : s'.slots = s.slots.set i (.taken v)) : JoinInv s' := by
  refine ⟨fun k c j hk => ?_, fun k k' c c' j hk hk' => h.child_unique k k' c c' j (ht ▸ hk) (ht ▸ hk')⟩
  rw [ht] at hk
  have hj := h.child_cell k c j hk
  have hne : i ≠ j := by rintro rfl; rw [hv] at hj; cases hj
  rw [hs, List.getElem?_set_ne hne]; exact hj

/-- The child `t` returns: its cell is filled and it leaves the table. -/
theorem finish (h : JoinInv s) {t c i : Nat} {v : α} (hget : s.tasks.get t = some (.spawned c i))
    (ht : s'.tasks = s.tasks.remove t) (hs : s'.slots = s.slots.set i (.filled v)) : JoinInv s' := by
  refine ⟨fun k c' j hk => ?_, fun k k' c₁ c₂ j hk hk' => ?_⟩
  · rw [ht] at hk
    obtain ⟨hkt, hk⟩ := Slab.get_remove_some hk
    have hne : i ≠ j := by rintro rfl; exact hkt (h.child_unique k t c' c i hk hget)
    rw [hs, List.getElem?_set_ne hne]; exact h.child_cell k c' j hk
  · rw [ht] at hk hk'
    exact h.child_unique k k' c₁ c₂ j (Slab.get_remove_some hk).2 (Slab.get_remove_some hk').2

/-- **Every step keeps the join cells' invariant.** -/
theorem step (h : JoinInv s) {a : Action α} (hs : s.step a = some s') : JoinInv s' := by
  rcases step_cells hs with hk | ⟨_, _, -, hfree, ht, hsl⟩ | ⟨_, _, -, hv, ht, hsl⟩ |
    ⟨_, _, _, _, -, -, hget, ht, hsl, -⟩
  · exact h.keeps hk
  · exact h.spawn hfree ht hsl
  · exact h.pollJoin hv ht hsl
  · exact h.finish hget ht hsl

end JoinInv

/-- The root task spawns two children, `2` with the cell `0` and `3` with the cell `1` (the
root moves the handle of `0` into `3`), awaits the handle of `1` and returns `Pending`; the next
iteration of the loop drains the ready set and polls `3` first. -/
def rootSpawnsTwo : List (Move Nat) :=
  [.sched, .sched, .sched, .sched, .user (.spawn 2), .user (.spawn 3), .user (.pollJoin 1),
    .user .pending] ++ List.replicate 10 .sched

end Exec

end Io2Proofs.Executor
