import Io2Proofs.Executor.TaskTable
import Mathlib.Data.List.Nodup

/-!
# The I/O records and the two counters

Every I/O operation a task queues goes through stages: queued on `io_queue` or `dio_queue`,
written to a ring's submission region, in flight, completed and not yet drained, and posted in
`io_results` until the task takes it. Its I/O record lives in `io` until the task takes the
result. `num_dio_running` counts the direct operations and `files_closing` the deferred closes,
which all carry the reserved I/O id.

* `IoView` — the part of the executor's state this bookkeeping consists of, and
  `IoView.Inv` — every live I/O id other than the reserved one is in exactly one stage and a
  removed one in none, the reserved record lives and never reaches `io_results` or the direct
  ring, and the counters count what is outstanding;
* `IoView.Inv.moves`, `.drain`, `.closeAll`, `.queue`, `.take` — the ways the bookkeeping
  changes each keep the invariant;
* `Exec.IoInv.step` — so every step of the executor keeps it, whatever the kernel answers;
* `Exec.io_records_in_one_stage`, `Exec.counters_match_outstanding`,
  `Exec.run_never_panics` — what follows for the reachable states.
-/

namespace Io2Proofs.Executor

/-! ### The I/O bookkeeping -/

/-- The executor's I/O bookkeeping: the I/O records, the two queues, the entries each ring has
not completed and the completions it has not had drained, the posted results, the two counters,
and the reserved close id. -/
structure IoView where
  io : Slab Nat
  ioQueue : List Entry
  dioQueue : List Entry
  pending : List Entry
  cq : List Cqe
  dioPending : List Entry
  dioCq : List Cqe
  ioResults : VecMap Nat Int
  numDioRunning : Nat
  filesClosing : Nat
  closeFileIoId : Nat

theorem count_filter_ne {l : List Nat} {k c : Nat} (h : k ≠ c) : (l.filter (· ≠ c)).count k = l.count k :=
  List.count_filter (by simpa using h)

namespace IoView

variable (v : IoView)

/-- The I/O ids of every stage: queued, in a submission region or in flight, completed and not
drained, or posted. -/
def staged : List Nat :=
  (v.ioQueue ++ v.dioQueue ++ v.pending ++ v.dioPending).map Entry.userData ++
    (v.cq ++ v.dioCq).map Cqe.userData ++ v.ioResults.keys

/-- The direct entries outstanding: queued, in the direct ring, or completed and not drained. -/
def dioOutstanding : Nat := v.dioQueue.length + v.dioPending.length + v.dioCq.length

/-- The entries of the reserved close record outstanding on the buffered side. -/
def closesOutstanding : Nat :=
  ((v.ioQueue ++ v.pending).map Entry.userData ++ v.cq.map Cqe.userData).count v.closeFileIoId

/-- **The invariant of the I/O bookkeeping.** -/
structure Inv : Prop where
  staged_count : ∀ k ≠ v.closeFileIoId, v.staged.count k = if k ∈ v.io then 1 else 0
  close_mem : v.closeFileIoId ∈ v.io
  close_not_posted : v.closeFileIoId ∉ v.ioResults.keys
  close_not_dio :
    v.closeFileIoId ∉ (v.dioQueue ++ v.dioPending).map Entry.userData ++ v.dioCq.map Cqe.userData
  numDioRunning_eq : v.numDioRunning = v.dioOutstanding
  filesClosing_eq : v.filesClosing = v.closesOutstanding

namespace Inv

variable {v}

/-- An id staged somewhere has a live record. -/
theorem mem_io_of_staged (h : v.Inv) {k : Nat} (hk : k ∈ v.staged) (hne : k ≠ v.closeFileIoId) :
    k ∈ v.io := by
  have := h.staged_count k hne
  split_ifs at this with hio
  · exact hio
  · exact absurd this (List.count_pos_iff.mpr hk).ne'

/-- No id other than the reserved one is staged twice. -/
theorem count_le_one (h : v.Inv) {k : Nat} (hne : k ≠ v.closeFileIoId) : v.staged.count k ≤ 1 := by
  rw [h.staged_count k hne]; split <;> omega

/-- A posted result's id is in no other stage: its operation is no longer queued, in a ring or
waiting to be drained. -/
theorem posted_not_staged (h : v.Inv) {k : Nat} (hk : k ∈ v.ioResults.keys) :
    k ∉ (v.ioQueue ++ v.dioQueue ++ v.pending ++ v.dioPending).map Entry.userData ++
      (v.cq ++ v.dioCq).map Cqe.userData := by
  intro hm
  have hle := h.count_le_one fun e => h.close_not_posted (e ▸ hk)
  have h₁ := List.count_pos_iff.mpr hm
  have h₂ := List.count_pos_iff.mpr hk
  rw [staged, List.count_append] at hle
  omega

/-- Entries moving between the queue, the ring and its completions, on either side. -/
theorem moves (h : v.Inv) {q p dq dp : List Entry} {c dc : List Cqe}
    (hb : (q.map Entry.userData ++ p.map Entry.userData ++ c.map Cqe.userData).Perm
      (v.ioQueue.map Entry.userData ++ v.pending.map Entry.userData ++ v.cq.map Cqe.userData))
    (hd : (dq.map Entry.userData ++ dp.map Entry.userData ++ dc.map Cqe.userData).Perm
      (v.dioQueue.map Entry.userData ++ v.dioPending.map Entry.userData ++ v.dioCq.map Cqe.userData)) :
    { v with ioQueue := q, pending := p, cq := c, dioQueue := dq, dioPending := dp, dioCq := dc }.Inv := by
  have hbc := hb.count_eq
  have hdc := hd.count_eq
  simp only [List.count_append] at hbc hdc
  refine ⟨fun k hk => ?_, h.close_mem, h.close_not_posted, fun hm => h.close_not_dio ?_, ?_, ?_⟩
  · rw [← h.staged_count k hk]
    simp only [staged, List.map_append, List.count_append]
    have := hbc k; have := hdc k; omega
  · simpa [or_assoc] using hd.mem_iff.mp (by simpa [or_assoc] using hm)
  · have := hd.length_eq; simp only [List.length_append, List.length_map] at this
    simp only [dioOutstanding, h.numDioRunning_eq]; omega
  · have := hbc v.closeFileIoId
    simp only [closesOutstanding, h.filesClosing_eq, List.map_append, List.count_append]; omega

/-- Only the keys of the result table matter. -/
theorem results (h : v.Inv) {R : VecMap Nat Int} (hR : R.keys = v.ioResults.keys) :
    { v with ioResults := R }.Inv := by
  obtain ⟨h₁, h₂, h₃, h₄, h₅, h₆⟩ := h
  exact ⟨by simpa [staged, hR] using h₁, h₂, by simpa [hR] using h₃, h₄, h₅, h₆⟩

/-- The completion drain: both completion queues are emptied, their ids other than the reserved
one are posted, the direct counter loses the direct completions and `files_closing` the close
completions. -/
theorem drain (h : v.Inv) {R : VecMap Nat Int}
    (hR : R.keys = v.ioResults.keys ++
      ((v.cq ++ v.dioCq).map Cqe.userData).filter (· ≠ v.closeFileIoId)) :
    { v with
      cq := []
      dioCq := []
      ioResults := R
      numDioRunning := v.numDioRunning - v.dioCq.length
      filesClosing := v.filesClosing - ((v.cq ++ v.dioCq).map Cqe.userData).count v.closeFileIoId }.Inv := by
  have hdio : (v.dioCq.map Cqe.userData).count v.closeFileIoId = 0 :=
    List.count_eq_zero.mpr fun hm => h.close_not_dio (by simp_all)
  refine ⟨fun k hk => ?_, h.close_mem, ?_, fun hm => h.close_not_dio ?_, ?_, ?_⟩
  · have hk' : k ≠ v.closeFileIoId := hk
    rw [← h.staged_count k hk]
    simp only [staged, hR, List.count_append, count_filter_ne hk', List.map_append, List.map_nil,
      List.append_nil, List.count_nil]
    omega
  · simp [hR, h.close_not_posted]
  · simp only [List.map_nil, List.append_nil] at hm; exact List.mem_append_left _ hm
  · simp only [dioOutstanding, h.numDioRunning_eq]; simp
  · have := h.filesClosing_eq
    simp only [closesOutstanding, List.map_append, List.count_append] at this hdio ⊢
    simp only [List.map_nil, List.count_nil]; omega

/-- The deferred closes: a close entry tagged with the reserved id per descriptor, each counted
in `files_closing`. -/
theorem closeAll (h : v.Inv) (fds : List Int) :
    { v with
      ioQueue := v.ioQueue ++ fds.map fun fd => (Opcode.close fd).build.withUserData v.closeFileIoId
      filesClosing := v.filesClosing + fds.length }.Inv := by
  have hud : ((fds.map fun fd => (Opcode.close fd).build.withUserData v.closeFileIoId).map
      Entry.userData) = List.replicate fds.length v.closeFileIoId := by
    simp only [List.map_map, Function.comp_def, Entry.withUserData_userData, List.map_const']
  refine ⟨fun k hk => ?_, h.close_mem, h.close_not_posted, h.close_not_dio, h.numDioRunning_eq, ?_⟩
  · rw [← h.staged_count k hk]
    simp only [staged, List.map_append, List.count_append, hud, List.count_replicate, beq_iff_eq,
      if_neg hk.symm]
    omega
  · have := h.filesClosing_eq
    simp only [closesOutstanding, List.map_append, List.count_append, hud, List.count_replicate_self]
      at this ⊢
    omega

/-- `queue_io` of an entry under a free key `k`, on either queue. -/
theorem queue (h : v.Inv) {k : Nat} (hk : k ∉ v.io) (t : Nat) (e : Entry) (directIo : Bool) :
    (if directIo then
      { v with
        io := v.io.insert k t
        dioQueue := v.dioQueue ++ [e.withUserData k]
        numDioRunning := v.numDioRunning + 1 }
    else { v with io := v.io.insert k t, ioQueue := v.ioQueue ++ [e.withUserData k] }).Inv := by
  have hne : k ≠ v.closeFileIoId := fun e => hk (e ▸ h.close_mem)
  have hcount : ∀ k', k' ≠ v.closeFileIoId →
      v.staged.count k' + [k].count k' = if k' ∈ v.io.insert k t then 1 else 0 := by
    intro k' hk'
    rw [h.staged_count k' hk']
    by_cases e : k' = k
    · subst e; simp [hk]
    · simp [e, Ne.symm e]
  have hclose : [k].count v.closeFileIoId = 0 := List.count_eq_zero.mpr (by simpa using hne.symm)
  split
  · refine ⟨fun k' hk' => ?_, by simp [h.close_mem], h.close_not_posted, ?_, ?_, h.filesClosing_eq⟩
    · rw [← hcount k' hk']
      simp only [staged, List.map_append, List.count_append, List.map_cons, List.map_nil,
        Entry.withUserData_userData]
      omega
    · simpa [Ne.symm hne] using h.close_not_dio
    · simp [dioOutstanding, h.numDioRunning_eq]; omega
  · refine ⟨fun k' hk' => ?_, by simp [h.close_mem], h.close_not_posted, h.close_not_dio,
      h.numDioRunning_eq, ?_⟩
    · rw [← hcount k' hk']
      simp only [staged, List.map_append, List.count_append, List.map_cons, List.map_nil,
        Entry.withUserData_userData]
      omega
    · have := h.filesClosing_eq
      simp only [closesOutstanding, List.map_append, List.count_append, List.map_cons,
        List.map_nil, Entry.withUserData_userData] at this ⊢
      omega

/-- `take_io_result` of a posted id: its result and its record go. -/
theorem take (h : v.Inv) {k : Nat} (hk : k ∈ v.ioResults.keys) :
    { v with io := v.io.remove k, ioResults := (v.ioResults.remove k).2 }.Inv := by
  have hne : k ≠ v.closeFileIoId := fun e => h.close_not_posted (e ▸ hk)
  refine ⟨fun k' hk' => ?_, by simp [h.close_mem, Ne.symm hne], by simp [h.close_not_posted],
    h.close_not_dio, h.numDioRunning_eq, h.filesClosing_eq⟩
  dsimp only at hk' ⊢
  have hcount := h.staged_count k' hk'
  simp only [staged, VecMap.keys_remove, List.count_append, Slab.mem_remove] at hcount ⊢
  by_cases e : k' = k
  · subst e
    have hpos : 0 < v.ioResults.keys.count k' := List.count_pos_iff.mpr hk
    rw [show (v.ioResults.keys.filter (· ≠ k')).count k' = 0 from List.count_eq_zero.mpr (by simp)]
    simp only [ne_eq, not_true_eq_false, and_false, if_false]
    split_ifs at hcount <;> omega
  · rw [count_filter_ne e]
    simpa [e] using hcount

/-- `take_io_result` of an id with no posted result changes nothing the invariant reads. -/
theorem take_absent (h : v.Inv) {k : Nat} (hk : k ∉ v.ioResults.keys) :
    { v with ioResults := (v.ioResults.remove k).2 }.Inv :=
  h.results (by
    rw [VecMap.keys_remove, List.filter_eq_self]
    intro k' hk'
    simp only [ne_eq, decide_eq_true_eq]
    rintro rfl
    exact hk hk')

end Inv

end IoView

namespace Exec

variable {α : Type} {s : Exec α}

/-- The executor's I/O bookkeeping. -/
def ioView (s : Exec α) : IoView :=
  ⟨s.io, s.ioQueue, s.dioQueue, s.ring.pending, s.ring.cq, s.dioRing.pending, s.dioRing.cq,
    s.ioResults, s.numDioRunning, s.filesClosing, s.closeFileIoId⟩

/-- The invariant of the executor's I/O bookkeeping. -/
def IoInv (s : Exec α) : Prop := s.ioView.Inv

/-! ### The completion drain -/

/-- The drain posts the completions' ids other than the reserved one, in order, and takes one
off `files_closing` per close completion. -/
theorem drainCqes_results : ∀ {l : List Cqe} {s s' : Exec α}, drainCqes l s = some s' →
    ((l.map Cqe.userData).filter (· ≠ s.closeFileIoId) ++ s.ioResults.keys).Nodup →
    s'.ioResults.keys = s.ioResults.keys ++ (l.map Cqe.userData).filter (· ≠ s.closeFileIoId) ∧
      s'.filesClosing = s.filesClosing - (l.map Cqe.userData).count s.closeFileIoId
  | [], s, s', h, _ => by cases h; simp
  | c :: rest, s, s', h, hnd => by
    simp only [drainCqes] at h
    split at h
    · rename_i hc
      split at h
      · cases h
      · obtain ⟨h₁, h₂⟩ := drainCqes_results h (by simpa [hc] using hnd)
        refine ⟨by simpa [hc] using h₁, ?_⟩
        rw [h₂]
        simp only [List.map_cons, List.count_cons, hc, beq_self_eq_true, if_true]
        omega
    · rename_i hc
      split at h
      · cases h
      · have hnd' : (c.userData :: ((rest.map Cqe.userData).filter (· ≠ s.closeFileIoId) ++
            s.ioResults.keys)).Nodup := by simpa [hc] using hnd
        have hnew : c.userData ∉ s.ioResults.keys := fun hm => (List.nodup_cons.mp hnd').1 (by simp [hm])
        have hkeys : (s.ioResults.insert c.userData c.result).keys = s.ioResults.keys ++ [c.userData] := by
          rw [VecMap.keys_insert, if_neg hnew]
        obtain ⟨h₁, h₂⟩ := drainCqes_results h (by
          rw [hkeys, ← List.append_assoc]
          exact (List.perm_append_singleton c.userData _).nodup_iff.mpr hnd')
        refine ⟨by simp [h₁, hkeys, hc], ?_⟩
        rw [h₂]
        simp [List.count_cons, Ne.symm hc]

/-- What `try_submit_io` does to a queue and a ring, as a move of entries. -/
theorem moved_perm {Q q : List Entry} {r r' : Ring} (hc : r'.pending ++ q = r.pending ++ Q)
    (hcq : r'.cq = r.cq) :
    (q.map Entry.userData ++ r'.pending.map Entry.userData ++ r'.cq.map Cqe.userData).Perm
      (Q.map Entry.userData ++ r.pending.map Entry.userData ++ r.cq.map Cqe.userData) := by
  rw [hcq, ← List.map_append, ← List.map_append]
  refine List.Perm.append_right _ (List.Perm.map _ ?_)
  exact List.perm_append_comm.trans (hc ▸ List.perm_append_comm)

namespace IoInv

theorem of_view {v : IoView} (hv : v.Inv) (e : s.ioView = v) : IoInv s := by
  unfold IoInv; rw [e]; exact hv

theorem init (h : s.Initial) : IoInv s := by
  have hio : ∀ k, k ∈ s.io ↔ k = s.closeFileIoId := fun k => by
    simp [Slab.mem_iff, Slab.keys, h.io]
  refine ⟨fun k hk => ?_, (hio _).mpr rfl, ?_, ?_, ?_, ?_⟩ <;>
    simp_all [ioView, IoView.staged, IoView.dioOutstanding, IoView.closesOutstanding, Ring.pending,
      h.ioQueue, h.dioQueue, h.ring, h.dioRing, h.ioResults, h.numDioRunning, h.filesClosing]

theorem waitSubmit (h : IoInv s) (answer : Submitted) : IoInv (s.waitSubmit answer) := by
  unfold Exec.waitSubmit
  split
  · split
    · exact of_view h (by simp [ioView])
    · split <;> exact h
  · exact h

theorem waitPass (h : IoInv s) (answer : Submitted) : IoInv (s.waitPass answer) := by
  unfold Exec.waitPass
  split
  · split
    · exact h
    · rename_i nw tn _
      have h' : IoInv { s with notifyWhen := nw, toNotify := tn } := h
      exact h'.waitSubmit answer
  · exact h

theorem pollNext (h : IoInv s) : IoInv s.pollNext := by
  unfold Exec.pollNext Exec.pollTask
  split
  · exact h
  · split
    · exact h
    · split <;> exact h

theorem submitBoth (h : IoInv s) (o : Oracle) (force : Bool) (next : Pc) :
    IoInv (s.submitBoth o force next) := by
  unfold Exec.submitBoth
  split
  · rename_i q r _ dq dr _ hq hd
    obtain ⟨hc, hcq⟩ := trySubmitIo_conserve hq
    obtain ⟨hdc, hdcq⟩ := trySubmitIo_conserve hd
    exact IoView.Inv.moves h (moved_perm hc hcq) (moved_perm hdc hdcq)
  · exact h

theorem afterPoll (h : IoInv s) (o : Oracle) : IoInv (s.afterPoll o) := by
  unfold Exec.afterPoll
  split
  · exact h
  · exact h.submitBoth o false .polling

/-- The ids the drain posts were staged once each, so none is posted twice. -/
theorem drain_nodup (h : IoInv s) :
    (((s.ring.cq ++ s.dioRing.cq).map Cqe.userData).filter (· ≠ s.closeFileIoId) ++
      s.ioResults.keys).Nodup := by
  rw [List.nodup_iff_count_le_one]
  intro k
  by_cases hk : k = s.closeFileIoId
  · subst hk
    have hposted : s.closeFileIoId ∉ s.ioResults.keys := h.close_not_posted
    rw [List.count_append, List.count_eq_zero.mpr (by simp), List.count_eq_zero.mpr hposted]
    omega
  · have := IoView.Inv.count_le_one h hk
    simp only [IoView.staged, ioView, List.count_append] at this
    rw [List.count_append, count_filter_ne hk]
    omega

theorem completeIo (h : IoInv s) : IoInv s.completeIo := by
  unfold Exec.completeIo
  split
  · exact h
  · split
    · exact h
    · rename_i s'' hdrain
      obtain ⟨e, -⟩ := drainCqes_frame hdrain
      obtain ⟨hkeys, hfc⟩ := drainCqes_results hdrain h.drain_nodup
      refine of_view (IoView.Inv.drain h hkeys) ?_
      rw [e]
      simp only [ioView, goto, hfc]
      rfl

theorem fireTimers (h : IoInv s) : IoInv s.fireTimers := by
  unfold Exec.fireTimers
  split <;> exact h

theorem schedStep (h : IoInv s) {o : Oracle} {s' : Exec α} (hs : s.schedStep o = some s') :
    IoInv s' := by
  unfold Exec.schedStep at hs
  split at hs <;> cases hs
  · exact h
  · exact h
  · exact h.waitPass _
  · unfold Exec.drainStart; split <;> exact h
  · exact h.pollNext
  · exact h.afterPoll o
  · exact h.submitBoth o true .complete
  · exact h.completeIo
  · exact h.fireTimers
  · exact IoView.Inv.closeAll h s.filesToClose

theorem takeIoResult (h : IoInv s) (ioId : Nat) : IoInv (CurrentTaskContext.takeIoResult s ioId).2 := by
  cases hg : s.ioResults.get? ioId with
  | none =>
    have hk : ioId ∉ s.ioResults.keys := fun hk => by
      simpa [hg] using (VecMap.get?_isSome _ _).mpr hk
    simp only [CurrentTaskContext.takeIoResult, VecMap.remove, hg]
    exact IoView.Inv.take_absent h hk
  | some res =>
    have hk : ioId ∈ s.ioResults.keys := (VecMap.get?_isSome _ _).mp (by simp [hg])
    simp only [CurrentTaskContext.takeIoResult, VecMap.remove, hg]
    exact IoView.Inv.take h hk

theorem userStep (h : IoInv s) {t : Nat} {op : Op α} {s' : Exec α} (hs : s.userStep t op = some s') :
    IoInv s' := by
  cases op with
  | queueIo entry directIo ioId =>
    simp only [Exec.userStep] at hs
    split at hs
    · cases hs
    · cases hs
      cases directIo
      · exact IoView.Inv.queue h ‹_› t entry false
      · exact IoView.Inv.queue h ‹_› t entry true
  | takeIoResult ioId => cases hs; exact h.takeIoResult ioId
  | notifyWhen when => cases hs; exact h
  | spawn child =>
    simp only [Exec.userStep] at hs
    split at hs
    · cases hs
    · cases hs; exact h
  | yieldIfNeeded =>
    cases hs
    unfold CurrentTaskContext.yieldIfNeeded
    split <;> exact h
  | pollJoin out =>
    simp only [Exec.userStep] at hs
    split at hs
    · cases hs
      rw [Exec.pollJoin_eq]
      split <;> exact h
    · cases hs
  | dropFile fd => cases hs; exact h
  | pending => cases hs; exact h
  | ready v =>
    cases hs
    unfold Exec.finishTask Exec.storeOutput
    split <;> exact h

/-- **Every step keeps the invariant of the I/O bookkeeping**, whatever the kernel answers and
whatever the tasks do. -/
theorem step (h : IoInv s) {a : Action α} {s' : Exec α} (hs : s.step a = some s') : IoInv s' := by
  cases a with
  | sched o => exact h.schedStep hs
  | user op =>
    simp only [Exec.step] at hs
    split at hs
    · exact h.userStep hs
    · cases hs
  | kernel dio i res =>
    simp only [Exec.step, Exec.kernelComplete] at hs
    split at hs
    · split at hs
      · cases hs
        refine IoView.Inv.moves h (List.Perm.refl _) ?_
        simpa [List.append_assoc] using
          (Ring.complete_perm ‹_› res).append_left (s.dioQueue.map Entry.userData)
      · cases hs
    · split at hs
      · cases hs
        refine IoView.Inv.moves h ?_ (List.Perm.refl _)
        simpa [List.append_assoc] using
          (Ring.complete_perm ‹_› res).append_left (s.ioQueue.map Entry.userData)
      · cases hs
  | tick d => cases hs; exact h

end IoInv

theorem Reachable.ioInv {Adm : Exec α → Action α → Prop} (hs : Reachable Adm s) : IoInv s :=
  Reachable.induction (fun _ h => IoInv.init h) (fun _ _ _ _ h _ hs => h.step hs) hs

/-! ### `run` never panics -/

/-- The root queues a buffered read under the I/O id `1` and a direct write under `2`, registers
a deadline at `5`, drops the file `7` and returns `Pending`. The loop submits the read and the
write and queues the close of `7` under the reserved record; the kernel completes the read, whose
result the drain posts while the close goes in flight, and then completes the write. -/
def busySchedule : List (Move Nat) :=
  List.replicate 4 .sched ++ [.user (.queueIo (Opcode.read 3 8 0).build false 1),
    .user (.queueIo (Opcode.write 4 8 0).build true 2), .user (.notifyWhen 5), .user (.dropFile 7),
    .user .pending] ++ List.replicate 10 .sched ++ [.kernel false 0 8, .sched, .kernel true 0 8]

/-- The state after `busySchedule`: the close of `7` in flight on the buffered ring, the write's
completion on the direct ring, the read's result posted. -/
def busyState : Exec Nat := afterSchedule busySchedule (Exec.boot Nat)

/-- After `busySchedule` the root takes the read's result and returns `Pending`. The next drain
takes the write's completion (`io.get(2).unwrap()` and the `checked_sub` on `num_dio_running`)
and the close's (the `checked_sub` on `files_closing`); `notify_timers` finds the deadline
elapsed and `swap_remove`s it, readying the root, which takes the write's result and returns
`Ready(0)`. The loop then runs to its end. -/
def busyTail : List (Move Nat) :=
  List.replicate 6 .sched ++ [.user (.takeIoResult 1), .user .pending] ++ List.replicate 3 .sched ++
    [.kernel false 0 0, .sched, .tick 6] ++ List.replicate 6 .sched ++
    [.user (.takeIoResult 2), .user (.ready 0)] ++ List.replicate 7 .sched

/-- The state the loop ends in after `busySchedule ++ busyTail`. -/
def busyDone : Exec Nat := afterSchedule (busySchedule ++ busyTail) (Exec.boot Nat)

/-- When the loop has ended, its condition is false: `out` holds the root's value, no close is
outstanding and `FILES_TO_CLOSE` is empty. -/
def ExitInv (s : Exec α) : Prop :=
  s.pc = .exited → s.out.isSome ∧ s.filesClosing = 0 ∧ s.filesToClose = []

theorem ExitInv.step (h : ExitInv s) {a : Action α} {s' : Exec α} (hs : s.step a = some s') :
    ExitInv s' := by
  intro he
  rcases step_pc hs with hpc | hpc | hpc
  · have hex : s.pc = .exited := hpc ▸ he
    cases a with
    | sched o => simp [Exec.step, Exec.schedStep, hex] at hs
    | user op => simp [Exec.step, hex] at hs
    | kernel dio i res =>
      simp only [Exec.step, Exec.kernelComplete] at hs
      split at hs <;> split at hs <;> cases hs <;> exact h hex
    | tick d => cases hs; exact h hex
  · rw [he] at hpc
    have hhead : s.pc = .head := by revert hpc; cases s.pc <;> simp [Pc.Next]
    cases a with
    | sched o =>
      simp only [Exec.step, Exec.schedStep, hhead] at hs
      cases hs
      revert he
      unfold loopHead goto
      split
      · simp
      · rename_i hc
        intro _
        simp only [not_or, Option.isNone_iff_eq_none, not_lt, Nat.le_zero, ne_eq, not_not] at hc
        exact ⟨Option.isSome_iff_ne_none.mpr hc.1, hc.2.1, hc.2.2⟩
    | user op => simp [Exec.step, hhead] at hs
    | kernel dio i res =>
      simp only [Exec.step, Exec.kernelComplete] at hs
      split at hs <;> split at hs <;> cases hs <;> simp [hhead] at he
    | tick d => cases hs; simp [hhead] at he
  · rw [he] at hpc; cases hpc

theorem Reachable.exitInv {Adm : Exec α → Action α → Prop} (hs : Reachable Adm s) : ExitInv s :=
  Reachable.induction (fun _ h he => by simp [h.pc] at he) (fun _ _ _ _ h _ hs => h.step hs) hs

/-! ### The counters -/

/-- **`num_dio_running` and `files_closing` count what is outstanding.** In every reachable
state, `num_dio_running` is the number of direct entries queued, in the direct ring (written to
its submission region or in flight) or completed and not drained, and `files_closing` the number
of entries of the reserved close record queued, in the buffered ring or completed and not
drained. So the drain's `checked_sub`s never fail, and when the loop ends no close entry is
outstanding anywhere. -/
theorem counters_match_outstanding (hs : Reachable Valid s) :
    s.numDioRunning = s.dioQueue.length + s.dioRing.pending.length + s.dioRing.cq.length ∧
    s.filesClosing = ((s.ioQueue ++ s.ring.pending).map Entry.userData ++
      s.ring.cq.map Cqe.userData).count s.closeFileIoId ∧
    s.dioRing.cq.length ≤ s.numDioRunning ∧
    ((s.ring.cq ++ s.dioRing.cq).map Cqe.userData).count s.closeFileIoId ≤ s.filesClosing ∧
    (s.pc = .exited → s.closeFileIoId ∉ (s.ioQueue ++ s.ring.pending ++ s.dioQueue ++
      s.dioRing.pending).map Entry.userData ++ (s.ring.cq ++ s.dioRing.cq).map Cqe.userData) := by
  have hi := hs.ioInv
  have hdio : s.numDioRunning = _ := hi.numDioRunning_eq
  have hfc : s.filesClosing = _ := hi.filesClosing_eq
  have hnodio := hi.close_not_dio
  simp only [ioView, IoView.dioOutstanding, IoView.closesOutstanding] at hdio hfc hnodio
  have hnodio' : ((s.dioRing.cq).map Cqe.userData).count s.closeFileIoId = 0 :=
    List.count_eq_zero.mpr fun hm => hnodio (List.mem_append_right _ hm)
  refine ⟨hdio, hfc, by omega, ?_, fun he hm => ?_⟩
  · simp only [List.map_append, List.count_append] at hfc ⊢; omega
  · obtain ⟨-, h0, -⟩ := hs.exitInv he
    rw [h0] at hfc
    have hbuf := List.count_eq_zero.mp hfc.symm
    simp only [List.map_append, List.mem_append] at hm hbuf hnodio
    tauto

/-- In `busyState` one direct entry (the write's completion) and one close are outstanding; in
`busyDone` the loop has ended and no close entry is left anywhere. -/
theorem counters_match_outstanding_busy :
    Reachable Valid busyState ∧ busyState.numDioRunning = 1 ∧ busyState.filesClosing = 1 ∧
    (busyState.numDioRunning = busyState.dioQueue.length + busyState.dioRing.pending.length +
        busyState.dioRing.cq.length ∧
      busyState.filesClosing = ((busyState.ioQueue ++ busyState.ring.pending).map Entry.userData ++
        busyState.ring.cq.map Cqe.userData).count busyState.closeFileIoId ∧
      busyState.dioRing.cq.length ≤ busyState.numDioRunning ∧
      ((busyState.ring.cq ++ busyState.dioRing.cq).map Cqe.userData).count busyState.closeFileIoId ≤
        busyState.filesClosing ∧
      (busyState.pc = .exited → busyState.closeFileIoId ∉ (busyState.ioQueue ++ busyState.ring.pending ++
        busyState.dioQueue ++ busyState.dioRing.pending).map Entry.userData ++
          (busyState.ring.cq ++ busyState.dioRing.cq).map Cqe.userData)) ∧
    Reachable Valid busyDone ∧ busyDone.pc = .exited ∧
    (busyDone.numDioRunning = busyDone.dioQueue.length + busyDone.dioRing.pending.length +
        busyDone.dioRing.cq.length ∧
      busyDone.filesClosing = ((busyDone.ioQueue ++ busyDone.ring.pending).map Entry.userData ++
        busyDone.ring.cq.map Cqe.userData).count busyDone.closeFileIoId ∧
      busyDone.dioRing.cq.length ≤ busyDone.numDioRunning ∧
      ((busyDone.ring.cq ++ busyDone.dioRing.cq).map Cqe.userData).count busyDone.closeFileIoId ≤
        busyDone.filesClosing ∧
      (busyDone.pc = .exited → busyDone.closeFileIoId ∉ (busyDone.ioQueue ++ busyDone.ring.pending ++
        busyDone.dioQueue ++ busyDone.dioRing.pending).map Entry.userData ++
          (busyDone.ring.cq ++ busyDone.dioRing.cq).map Cqe.userData)) :=
  have hs : Reachable Valid busyState :=
    (reachable_afterSchedule (Exec.boot_initial Nat) (by decide)).valid
  have hd : Reachable Valid busyDone :=
    (reachable_afterSchedule (Exec.boot_initial Nat) (by decide)).valid
  ⟨hs, by decide, by decide, counters_match_outstanding hs, hd, by decide,
    counters_match_outstanding hd⟩

/-! ### Under the Safety contract of `queue_io`, every record names a task in the table -/

/-- Every I/O record other than the reserved one names a task in the table. -/
def OwnersLive (s : Exec α) : Prop :=
  ∀ k t, s.io.get k = some t → k ≠ s.closeFileIoId → t ∈ s.tasks

theorem OwnersLive.userStep (h : OwnersLive s) (ht : TaskInv s) {t : Nat} (hpc : s.pc = .running t)
    {op : Op α} (hc : s.KeepsContract (.user op)) {s' : Exec α} (hs : s.userStep t op = some s') :
    OwnersLive s' := by
  cases op with
  | queueIo entry directIo ioId =>
    simp only [Exec.userStep] at hs
    split at hs
    · cases hs
    · rename_i hfree
      cases hs
      have hnew : ∀ k t', (s.io.insert ioId t).get k = some t' → k ≠ s.closeFileIoId → t' ∈ s.tasks := by
        intro k t' hk hne
        rw [Slab.get_insert t hfree] at hk
        split_ifs at hk
        · cases hk
          obtain ⟨task, hget, -⟩ := ht.running t hpc
          exact Slab.mem_of_get hget
        · exact h k t' hk hne
      unfold CurrentTaskContext.queueIo
      split <;> exact hnew
  | takeIoResult ioId =>
    cases hs
    unfold CurrentTaskContext.takeIoResult
    split
    · intro k t' hk hne
      exact h k t' (Slab.get_remove_some hk).2 hne
    · exact h
  | spawn child =>
    simp only [Exec.userStep] at hs
    split at hs
    · cases hs
    · cases hs
      intro k t' hk hne
      exact Slab.mem_insert.mpr (.inl (h k t' hk hne))
  | yieldIfNeeded =>
    cases hs
    unfold CurrentTaskContext.yieldIfNeeded
    split <;> exact h
  | pollJoin out =>
    simp only [Exec.userStep] at hs
    split at hs
    · cases hs; rw [Exec.pollJoin_eq]; split <;> exact h
    · cases hs
  | ready v =>
    cases hs
    intro k t' hk hne
    obtain ⟨o, sl, tn, e⟩ := Exec.storeOutput_frame s v (s.tasks.get t)
    simp only [Exec.finishTask, Exec.goto, e] at hk hne ⊢
    exact Slab.mem_remove.mpr ⟨h k t' hk hne, fun e => hc rfl (k, t') (Slab.mem_entries_of_get hk) (e ▸ hpc)⟩
  | _ => cases hs; exact h

theorem OwnersLive.step (h : OwnersLive s) (ht : TaskInv s) {a : Action α} (hc : s.KeepsContract a)
    {s' : Exec α} (hs : s.step a = some s') : OwnersLive s' := by
  cases a with
  | sched o =>
    obtain ⟨hio, hcio, -, -, -, htasks⟩ := schedStep_frame hs
    intro k t hk hne
    rw [hio] at hk
    rw [hcio] at hne
    rcases htasks with e | ⟨t', ht', e⟩
    · rw [e]; exact h k t hk hne
    · rw [e, Slab.mem_remove]
      refine ⟨h k t hk hne, fun et => ?_⟩
      subst et
      exact ht.close_no_io k t hk hne (ht.closeTask_unique t ht')
  | user op =>
    simp only [Exec.step] at hs
    split at hs
    · exact h.userStep ht ‹_› hc hs
    · cases hs
  | kernel dio i res =>
    simp only [Exec.step, Exec.kernelComplete] at hs
    split at hs <;> split at hs <;> cases hs <;> exact h
  | tick d => cases hs; exact h

theorem OwnersLive.init (h : s.Initial) : OwnersLive s := by
  intro k t hk hne
  rw [h.io, Slab.get, Slab.lookup_cons_ne hne] at hk; simp at hk

theorem Reachable.ownersLive (hs : Reachable Lawful s) : OwnersLive s :=
  Reachable.induction (fun _ h => OwnersLive.init h)
    (fun _ _ _ hr h ha he => h.step hr.taskInv ha.2 he) hs

/-! ### The I/O records -/

/-- **Every live I/O operation is in exactly one stage.** In every reachable state of a run whose
kernel answers are `Ok` or `EBUSY` and whose tasks keep the Safety contract of `queue_io`: every
I/O id other than the reserved close id is staged once (queued, in a submission region or in
flight, completed and not drained, or posted) while its record lives, and nowhere after; every
staged id has a live record; every record names a task in the table; the reserved id never
reaches `io_results`; and the drain's `io.get(io_id).unwrap()` finds a record for every
completion it posts. -/
theorem io_records_in_one_stage (hs : Reachable Lawful s) :
    (∀ k ≠ s.closeFileIoId, s.ioView.staged.count k = if k ∈ s.io then 1 else 0) ∧
    (∀ k ∈ s.ioView.staged, k ∈ s.io) ∧
    (∀ k t, s.io.get k = some t → k ≠ s.closeFileIoId → t ∈ s.tasks) ∧
    s.closeFileIoId ∉ s.ioResults.keys ∧
    ∀ c ∈ s.ring.cq ++ s.dioRing.cq, c.userData ≠ s.closeFileIoId → (s.io.get c.userData).isSome := by
  have hi := hs.ioInv
  refine ⟨hi.staged_count, fun k hk => ?_, hs.ownersLive, hi.close_not_posted, fun c hc hne => ?_⟩
  · by_cases hne : k = s.closeFileIoId
    · exact hne ▸ hi.close_mem
    · exact IoView.Inv.mem_io_of_staged hi hk hne
  · exact Slab.get_isSome.mpr (IoView.Inv.mem_io_of_staged hi
      (List.mem_append_left _ (List.mem_append_right _ (List.mem_map_of_mem _ hc))) hne)

/-- In `busyState` the records `1` and `2` name the root and are at two different stages: the
write's completion waits on the direct ring and the read's result is posted, while the reserved
record's close is in flight. -/
theorem io_records_in_one_stage_busy :
    Reachable Lawful busyState ∧ busyState.io.entries = [(0, 0), (1, 1), (2, 1)] ∧
    busyState.ioView.staged = [0, 2, 1] ∧ busyState.ioResults.keys = [1] ∧
    busyState.dioRing.cq.map Cqe.userData = [2] ∧
    ((∀ k ≠ busyState.closeFileIoId, busyState.ioView.staged.count k = if k ∈ busyState.io then 1 else 0) ∧
      (∀ k ∈ busyState.ioView.staged, k ∈ busyState.io) ∧
      (∀ k t, busyState.io.get k = some t → k ≠ busyState.closeFileIoId → t ∈ busyState.tasks) ∧
      busyState.closeFileIoId ∉ busyState.ioResults.keys ∧
      ∀ c ∈ busyState.ring.cq ++ busyState.dioRing.cq,
        c.userData ≠ busyState.closeFileIoId → (busyState.io.get c.userData).isSome) :=
  have hs : Reachable Lawful busyState := reachable_afterSchedule (Exec.boot_initial Nat) (by decide)
  ⟨hs, by decide, by decide, by decide, by decide, io_records_in_one_stage hs⟩

end Exec

end Io2Proofs.Executor
