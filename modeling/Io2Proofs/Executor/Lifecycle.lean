import Io2Proofs.Executor.IoRecords

/-!
# The lifecycle of an I/O request

What the I/O bookkeeping of `run` is for: each request a task queues with `queue_io` is queued on
the queue of its ring, written to that ring, completed by the kernel, posted in `io_results`, and
taken by `take_io_result`, in this order and once. This module states that lifecycle as an
abstract machine over the stage of one I/O id, and shows that the executor refines it: every
step of the executor moves every request forward on its ring or leaves it where it is; a request
appears only through `queue_io` of its id, and leaves only through `take_io_result` of its id,
once posted.

* `Stage`, `Stage.Le`, `Stage.Step` — the stages of a request and the abstract lifecycle;
* `IoView.stage` — the abstraction: the stage the bookkeeping holds an id at;
* `IoView.Forward` — what a step does to one id when it neither creates nor takes it, with one
  lemma per edit of the bookkeeping (`submit`, `complete`, `drain`, `closeAll`), and
  `Inv.queue_step`, `Inv.take_step` for the edits that create and take an id;
* `Exec.io_request_lifecycle` — every step of the executor is a step of the lifecycle of every
  request;
* `Exec.io_request_only_advances` — along every run in which no task takes its result, a
  request only moves forward on its ring.
-/

namespace Io2Proofs.Executor

/-! ### The abstract lifecycle -/

/-- Where a request is: queued on the queue of its ring (`direct` for the direct ring), written
to the ring and not completed, completed and not drained, or posted in `io_results`. -/
inductive Stage
  | queued (direct : Bool)
  | submitted (direct : Bool)
  | completed (direct : Bool)
  | posted
  deriving DecidableEq, Repr

namespace Stage

/-- How far the request has come. -/
def rank : Stage → Nat
  | queued _ => 0
  | submitted _ => 1
  | completed _ => 2
  | posted => 3

/-- The ring of a request that is not posted. -/
def ring? : Stage → Option Bool
  | queued d => some d
  | submitted d => some d
  | completed d => some d
  | posted => none

/-- `b` is `a` or a later stage of the same request: on the same ring, or posted. -/
def Le (a b : Stage) : Prop := a.rank ≤ b.rank ∧ (b = posted ∨ a.ring? = b.ring?)

instance : DecidableRel Le := fun _ _ => inferInstanceAs (Decidable (_ ∧ _))

theorem Le.refl (a : Stage) : a.Le a := ⟨le_rfl, .inr rfl⟩

theorem Le.trans {a b c : Stage} (hab : a.Le b) (hbc : b.Le c) : a.Le c := by
  refine ⟨hab.1.trans hbc.1, ?_⟩
  rcases hbc.2 with h | h
  · exact .inl h
  · rcases hab.2 with rfl | h'
    · cases c <;> simp_all [rank, Le]
    · exact .inr (h'.trans h)

/-- Every stage, from the latest back. -/
def all : List Stage :=
  [posted, completed false, completed true, submitted false, submitted true, queued false, queued true]

theorem mem_all : ∀ X : Stage, X ∈ all
  | queued d | submitted d | completed d => by cases d <;> decide
  | posted => by decide

/-- **One step of a request's lifecycle.** It stays or moves forward on its ring; it appears,
queued, only when `created`; and it leaves, from `posted`, only when `taken`. -/
def Step (created taken : Prop) : Option Stage → Option Stage → Prop
  | none, none => True
  | none, some b => (∃ d, b = queued d) ∧ created
  | some a, some b => a.Le b
  | some a, none => a = posted ∧ taken

theorem Step.mono {P P' Q Q' : Prop} (hP : P → P') (hQ : Q → Q') :
    ∀ {x y : Option Stage}, Step P Q x y → Step P' Q' x y
  | none, none, _ => trivial
  | none, some _, h => h.imp_right hP
  | some _, some _, h => h
  | some _, none, h => h.imp_right hQ

theorem Step.refl {P Q : Prop} : ∀ x : Option Stage, Step P Q x x
  | none => trivial
  | some a => Le.refl a

end Stage

/-! ### The stage the bookkeeping holds an id at -/

namespace IoView

variable (v : IoView)

/-- The ids at a stage. -/
def ids : Stage → List Nat
  | .queued false => v.ioQueue.map Entry.userData
  | .queued true => v.dioQueue.map Entry.userData
  | .submitted false => v.pending.map Entry.userData
  | .submitted true => v.dioPending.map Entry.userData
  | .completed false => v.cq.map Cqe.userData
  | .completed true => v.dioCq.map Cqe.userData
  | .posted => v.ioResults.keys

/-- **The abstraction**: the latest stage that holds the id `k`. -/
def stage (k : Nat) : Option Stage := Stage.all.find? fun X => k ∈ v.ids X

/-- The ids of every stage, counted one stage at a time. -/
theorem count_staged (k : Nat) :
    v.staged.count k =
      (v.ids (.queued false)).count k + (v.ids (.queued true)).count k +
        (v.ids (.submitted false)).count k + (v.ids (.submitted true)).count k +
        (v.ids (.completed false)).count k + (v.ids (.completed true)).count k +
        (v.ids .posted).count k := by
  simp only [staged, ids, List.map_append, List.count_append]
  omega

variable {v}

/-- The bookkeeping holds the id at the stage the abstraction names. -/
theorem mem_of_stage {k : Nat} {X : Stage} (h : v.stage k = some X) : k ∈ v.ids X := by
  unfold stage at h
  simpa using List.find?_some h

/-- An id with no stage is at none. -/
theorem not_mem_of_stage {k : Nat} (h : v.stage k = none) (X : Stage) : k ∉ v.ids X := by
  unfold stage at h
  simpa using List.find?_eq_none.1 h X (Stage.mem_all X)

theorem stage_eq_none_of {k : Nat} (h : ∀ X, k ∉ v.ids X) : v.stage k = none :=
  List.find?_eq_none.2 fun X _ => by simpa using h X

/-- **No id other than the reserved one is at two stages.** -/
theorem Inv.ids_unique (hv : v.Inv) {k : Nat} (hk : k ≠ v.closeFileIoId) {X Y : Stage}
    (hX : k ∈ v.ids X) (hY : k ∈ v.ids Y) : X = Y := by
  have hc := hv.count_le_one hk
  rw [count_staged] at hc
  have := List.count_pos_iff.2 hX
  have := List.count_pos_iff.2 hY
  rcases X with (_ | _) | (_ | _) | (_ | _) | _ <;> rcases Y with (_ | _) | (_ | _) | (_ | _) | _ <;>
    first | rfl | omega

/-- Where the bookkeeping holds an id, the abstraction finds it. -/
theorem Inv.stage_eq (hv : v.Inv) {k : Nat} (hk : k ≠ v.closeFileIoId) {X : Stage}
    (hm : k ∈ v.ids X) : v.stage k = some X := by
  cases hs : v.stage k with
  | none => exact absurd hm (not_mem_of_stage hs X)
  | some Y => rw [hv.ids_unique hk hm (mem_of_stage hs)]

/-- An id with no record is at no stage. -/
theorem Inv.stage_eq_none (hv : v.Inv) {k : Nat} (hk : k ≠ v.closeFileIoId) (hio : k ∉ v.io) :
    v.stage k = none := by
  have hc := hv.staged_count k hk
  rw [if_neg hio, count_staged] at hc
  refine stage_eq_none_of fun X hm => ?_
  have := List.count_pos_iff.2 hm
  rcases X with (_ | _) | (_ | _) | (_ | _) | _ <;> omega

/-! ### Edits that neither create nor take an id -/

/-- **What an edit that neither creates nor takes the id `k` does to it**: wherever `v` holds
it, `v'` holds it at the same stage or a later one of the same request; wherever `v'` holds it,
`v` held it. -/
structure Forward (v v' : IoView) (k : Nat) : Prop where
  close : v'.closeFileIoId = v.closeFileIoId
  fwd : ∀ X, k ∈ v.ids X → ∃ Y, k ∈ v'.ids Y ∧ X.Le Y
  back : ∀ Y, k ∈ v'.ids Y → ∃ X, k ∈ v.ids X

variable {v' : IoView} {k : Nat}

/-- Such an edit is a step of the lifecycle of `k` that stays or moves forward. -/
theorem Forward.step (hf : Forward v v' k) (hv' : v'.Inv) (hk : k ≠ v.closeFileIoId) :
    Stage.Step False False (v.stage k) (v'.stage k) := by
  cases h : v.stage k with
  | none =>
    cases h' : v'.stage k with
    | none => trivial
    | some Y =>
      obtain ⟨X, hX⟩ := hf.back Y (mem_of_stage h')
      exact absurd hX (not_mem_of_stage h X)
  | some X =>
    obtain ⟨Y, hY, hXY⟩ := hf.fwd X (mem_of_stage h)
    rw [hv'.stage_eq (hf.close ▸ hk) hY]
    exact hXY

/-- An edit that leaves where `k` is alone. -/
theorem Forward.of_mem (hc : v'.closeFileIoId = v.closeFileIoId) (h : ∀ X, k ∈ v'.ids X ↔ k ∈ v.ids X) :
    Forward v v' k :=
  ⟨hc, fun X hm => ⟨X, (h X).2 hm, .refl X⟩, fun Y hm => ⟨Y, (h Y).1 hm⟩⟩

theorem Forward.of_eq (e : v' = v) : Forward v v' k := .of_mem (by rw [e]) (by simp [e])

/-- **`try_submit_io` on both rings**: each moves a prefix of its queue to the end of what its
ring holds, and leaves its completions alone. -/
theorem Forward.submit {q p dq dp : List Entry} {c dc : List Cqe}
    (hb : ∃ pre, v.ioQueue = pre ++ q ∧ p = v.pending ++ pre) (hc : c = v.cq)
    (hd : ∃ pre, v.dioQueue = pre ++ dq ∧ dp = v.dioPending ++ pre) (hdc : dc = v.dioCq) :
    Forward v
      { v with ioQueue := q, pending := p, cq := c, dioQueue := dq, dioPending := dp, dioCq := dc } k := by
  obtain ⟨pre, hq, rfl⟩ := hb
  obtain ⟨dpre, hdq, rfl⟩ := hd
  subst hc hdc
  refine ⟨rfl, fun X hm => ?_, fun Y hm => ?_⟩
  · cases X with
    | queued d =>
      cases d <;> simp only [ids, hq, hdq, List.map_append, List.mem_append] at hm <;>
        rcases hm with hm | hm
      · exact ⟨.submitted false, by simp [ids, hm], by decide⟩
      · exact ⟨.queued false, by simp [ids, hm], by decide⟩
      · exact ⟨.submitted true, by simp [ids, hm], by decide⟩
      · exact ⟨.queued true, by simp [ids, hm], by decide⟩
    | submitted d => exact ⟨.submitted d, by cases d <;> simp_all [ids], .refl _⟩
    | completed d => exact ⟨.completed d, by cases d <;> exact hm, .refl _⟩
    | posted => exact ⟨.posted, hm, .refl _⟩
  · cases Y with
    | queued d => exact ⟨.queued d, by cases d <;> simp_all [ids]⟩
    | submitted d =>
      cases d <;> simp only [ids, List.map_append, List.mem_append] at hm <;> rcases hm with hm | hm
      · exact ⟨.submitted false, hm⟩
      · exact ⟨.queued false, by simp [ids, hq, hm]⟩
      · exact ⟨.submitted true, hm⟩
      · exact ⟨.queued true, by simp [ids, hdq, hm]⟩
    | completed d => exact ⟨.completed d, by cases d <;> exact hm⟩
    | posted => exact ⟨.posted, hm⟩

/-- **The kernel completes an entry** of either ring: the ring's entries and completions hold the
same ids as before, and the completions only grow. -/
theorem Forward.complete {p dp : List Entry} {c dc : List Cqe}
    (hb : (p.map Entry.userData ++ c.map Cqe.userData).Perm
      (v.pending.map Entry.userData ++ v.cq.map Cqe.userData)) (hbc : v.cq ⊆ c)
    (hd : (dp.map Entry.userData ++ dc.map Cqe.userData).Perm
      (v.dioPending.map Entry.userData ++ v.dioCq.map Cqe.userData)) (hdc : v.dioCq ⊆ dc) :
    Forward v { v with pending := p, cq := c, dioPending := dp, dioCq := dc } k := by
  have hbm := fun k => (hb.mem_iff (a := k))
  have hdm := fun k => (hd.mem_iff (a := k))
  simp only [List.mem_append] at hbm hdm
  refine ⟨rfl, fun X hm => ?_, fun Y hm => ?_⟩
  · cases X with
    | queued d => exact ⟨.queued d, by cases d <;> exact hm, .refl _⟩
    | submitted d =>
      cases d
      · rcases (hbm k).2 (.inl hm) with h | h
        · exact ⟨.submitted false, h, .refl _⟩
        · exact ⟨.completed false, h, by decide⟩
      · rcases (hdm k).2 (.inl hm) with h | h
        · exact ⟨.submitted true, h, .refl _⟩
        · exact ⟨.completed true, h, by decide⟩
    | completed d =>
      cases d
      · exact ⟨.completed false, List.map_subset _ hbc hm, .refl _⟩
      · exact ⟨.completed true, List.map_subset _ hdc hm, .refl _⟩
    | posted => exact ⟨.posted, hm, .refl _⟩
  · cases Y with
    | queued d => exact ⟨.queued d, by cases d <;> exact hm⟩
    | submitted d =>
      cases d
      · rcases (hbm k).1 (.inl hm) with h | h
        exacts [⟨.submitted false, h⟩, ⟨.completed false, h⟩]
      · rcases (hdm k).1 (.inl hm) with h | h
        exacts [⟨.submitted true, h⟩, ⟨.completed true, h⟩]
    | completed d =>
      cases d
      · rcases (hbm k).1 (.inr hm) with h | h
        exacts [⟨.submitted false, h⟩, ⟨.completed false, h⟩]
      · rcases (hdm k).1 (.inr hm) with h | h
        exacts [⟨.submitted true, h⟩, ⟨.completed true, h⟩]
    | posted => exact ⟨.posted, hm⟩

/-- **The completion drain**: every completion other than the reserved close is posted. -/
theorem Forward.drain {R : VecMap Nat Int} {n f : Nat} (hk : k ≠ v.closeFileIoId)
    (hR : R.keys = v.ioResults.keys ++
      ((v.cq ++ v.dioCq).map Cqe.userData).filter (· ≠ v.closeFileIoId)) :
    Forward v { v with cq := [], dioCq := [], ioResults := R, numDioRunning := n, filesClosing := f } k := by
  refine ⟨rfl, fun X hm => ?_, fun Y hm => ?_⟩
  · cases X with
    | completed d => exact ⟨.posted, by cases d <;> simp_all [ids], by cases d <;> decide⟩
    | posted => exact ⟨.posted, by simp_all [ids], .refl _⟩
    | queued d => exact ⟨.queued d, by cases d <;> exact hm, .refl _⟩
    | submitted d => exact ⟨.submitted d, by cases d <;> exact hm, .refl _⟩
  · cases Y with
    | posted =>
      simp only [ids, hR, List.mem_append, List.mem_filter, List.map_append] at hm
      rcases hm with h | ⟨h | h, -⟩
      exacts [⟨.posted, h⟩, ⟨.completed false, h⟩, ⟨.completed true, h⟩]
    | completed d => cases d <;> simp [ids] at hm
    | queued d => exact ⟨.queued d, by cases d <;> exact hm⟩
    | submitted d => exact ⟨.submitted d, by cases d <;> exact hm⟩

/-- **The deferred closes** are queued under the reserved id, so no other id moves. -/
theorem Forward.closeAll (hk : k ≠ v.closeFileIoId) (fds : List Int) :
    Forward v
      { v with
        ioQueue := v.ioQueue ++ fds.map fun fd => (Opcode.close fd).build.withUserData v.closeFileIoId
        filesClosing := v.filesClosing + fds.length } k :=
  .of_mem rfl fun X => by
    rcases X with (_ | _) | (_ | _) | (_ | _) | _ <;>
      first | exact Iff.rfl | simp [ids, List.map_map, Function.comp_def, hk]

/-- **`queue_io` under a free key `k'`** creates `k'`, queued on the ring it asked for, and
leaves every other id alone. -/
theorem Inv.queue_step (hv : v.Inv) {k' : Nat} (hk' : k' ∉ v.io) (hk : k ≠ v.closeFileIoId)
    (t : Nat) (e : Entry) (directIo : Bool) :
    Stage.Step (k' = k) False (v.stage k)
      ((if directIo then
        { v with
          io := v.io.insert k' t
          dioQueue := v.dioQueue ++ [e.withUserData k']
          numDioRunning := v.numDioRunning + 1 }
      else { v with io := v.io.insert k' t, ioQueue := v.ioQueue ++ [e.withUserData k'] }).stage k) := by
  have hv' := hv.queue hk' t e directIo
  by_cases hkk : k' = k
  · subst hkk
    rw [hv.stage_eq_none hk hk', hv'.stage_eq (by split <;> exact hk) ?_]
    · exact ⟨⟨directIo, rfl⟩, rfl⟩
    · cases directIo <;> simp [ids]
  · refine ((Forward.of_mem (by split <;> rfl) fun X => ?_).step hv' hk).mono False.elim id
    rcases X with (_ | _) | (_ | _) | (_ | _) | _ <;> cases directIo <;>
      first | exact Iff.rfl | simp [ids, Ne.symm hkk]

/-- **`take_io_result(k')`** takes `k'` if it is posted, and leaves every other id alone. -/
theorem Inv.take_step {io : Slab Nat} {R : VecMap Nat Int} {k' : Nat}
    (hR : R.keys = v.ioResults.keys.filter (· ≠ k')) (hv : v.Inv)
    (hv' : { v with io := io, ioResults := R }.Inv) (hk : k ≠ v.closeFileIoId) :
    Stage.Step False (k' = k) (v.stage k) ({ v with io := io, ioResults := R }.stage k) := by
  by_cases hkk : k' = k ∧ k ∈ v.ioResults.keys
  · obtain ⟨rfl, hm⟩ := hkk
    have hns := hv.posted_not_staged hm
    simp only [List.map_append, List.mem_append, not_or] at hns
    rw [hv.stage_eq hk (show k' ∈ v.ids .posted from hm), stage_eq_none_of fun X => ?_]
    · exact ⟨rfl, rfl⟩
    · cases X with
      | posted => simp [ids, hR]
      | queued d => cases d <;> simp only [ids] <;> tauto
      | submitted d => cases d <;> simp only [ids] <;> tauto
      | completed d => cases d <;> simp only [ids] <;> tauto
  · have hf : Forward v { v with io := io, ioResults := R } k := .of_mem rfl fun X => by
      rcases X with (_ | _) | (_ | _) | (_ | _) | _
      all_goals try exact Iff.rfl
      simp only [ids, hR, List.mem_filter, decide_eq_true_eq]
      by_cases e : k' = k
      · subst e; simp_all
      · exact ⟨fun h => h.1, fun h => ⟨h, Ne.symm e⟩⟩
    exact (hf.step hv' hk).mono False.elim False.elim

end IoView

/-! ### `try_submit_io` moves a prefix of the queue -/

section Submit

variable {kernel : Nat → Submitted}

theorem submitLoop_suffix {Q q : List Entry} {r r' : Ring} {n n' : Nat}
    (h : submitLoop kernel Q r n = some (q, r', n')) : q <:+ Q := by
  induction Q generalizing r n with
  | nil => simp only [submitLoop, Option.some.injEq, Prod.mk.injEq] at h; exact h.1 ▸ List.suffix_refl _
  | cons e Q ih =>
    simp only [submitLoop] at h
    split at h
    · split at h
      · split at h
        · cases h
        · exact (ih h).trans (List.suffix_cons e Q)
      · split at h
        · simp only [Option.some.injEq, Prod.mk.injEq] at h; exact h.1 ▸ List.suffix_refl _
        · cases h
    · exact (ih h).trans (List.suffix_cons e Q)

/-- **`try_submit_io` moves a prefix of the queue to the end of the ring's entries.** -/
theorem trySubmitIo_prefix {Q q : List Entry} {r r' : Ring} {forceSubmit : Bool} {n : Nat}
    (h : trySubmitIo kernel Q r forceSubmit = some (q, r', n)) :
    ∃ pre, Q = pre ++ q ∧ r'.pending = r.pending ++ pre := by
  have hsuf : q <:+ Q := by
    unfold trySubmitIo at h
    split at h
    · cases h
    · rename_i q₀ r₀ n₀ hl
      split at h
      · split at h
        · cases h; exact submitLoop_suffix hl
        · split at h <;> cases h; exact submitLoop_suffix hl
      · cases h; exact submitLoop_suffix hl
  obtain ⟨pre, rfl⟩ := hsuf
  have hc := (trySubmitIo_conserve h).1
  rw [← List.append_assoc] at hc
  exact ⟨pre, rfl, List.append_cancel_right hc⟩

end Submit

namespace Exec

variable {α : Type} {s s' : Exec α} {k : Nat}

/-! ### What each step does to a request -/

theorem waitSubmit_ioView (answer : Submitted) : (s.waitSubmit answer).ioView = s.ioView := by
  unfold waitSubmit
  split
  · split
    · simp [ioView]
    · split <;> rfl
  · rfl

/-- `try_submit_io` on both rings moves requests from their queues into their rings. -/
theorem submitBoth_forward (o : Oracle) (forceDio : Bool) (next : Pc) :
    IoView.Forward s.ioView (s.submitBoth o forceDio next).ioView k := by
  unfold submitBoth
  split
  · rename_i hq hd
    obtain ⟨pre, hpre, hp⟩ := trySubmitIo_prefix hq
    obtain ⟨dpre, hdpre, hdp⟩ := trySubmitIo_prefix hd
    exact .submit ⟨pre, hpre, hp⟩ (trySubmitIo_conserve hq).2 ⟨dpre, hdpre, hdp⟩
      (trySubmitIo_conserve hd).2
  · exact .of_eq rfl

/-- The drain posts every completion it finds. -/
theorem completeIo_forward (h : IoInv s) (hk : k ≠ s.closeFileIoId) :
    IoView.Forward s.ioView s.completeIo.ioView k := by
  unfold completeIo
  split
  · exact .of_eq rfl
  · split
    · exact .of_eq rfl
    · rename_i s'' hdrain
      obtain ⟨e, -⟩ := drainCqes_frame hdrain
      have hv : (s''.goto .timers).ioView =
          { s.ioView with
            cq := []
            dioCq := []
            ioResults := s''.ioResults
            numDioRunning := s.numDioRunning - s.dioRing.cq.length
            filesClosing := s''.filesClosing } := by
        rw [e]; rfl
      rw [hv]
      exact .drain hk (drainCqes_results hdrain h.drain_nodup).1

/-- **The scheduler's steps move requests forward**: `try_submit_io`, the drain and the deferred
closes move them, and the other steps leave the bookkeeping as it is. -/
theorem schedStep_forward (h : IoInv s) {o : Oracle} (hs : s.schedStep o = some s')
    (hk : k ≠ s.closeFileIoId) : IoView.Forward s.ioView s'.ioView k := by
  unfold schedStep at hs
  split at hs <;> cases hs
  · exact .of_eq rfl
  · exact .of_eq rfl
  · unfold waitPass
    split
    · split
      · exact .of_eq rfl
      · exact .of_eq (waitSubmit_ioView _)
    · exact .of_eq rfl
  · unfold drainStart; split <;> exact .of_eq rfl
  · unfold pollNext pollTask
    split
    · exact .of_eq rfl
    · split
      · exact .of_eq rfl
      · split <;> exact .of_eq rfl
  · unfold afterPoll
    split
    · exact .of_eq rfl
    · exact submitBoth_forward o false .polling
  · exact submitBoth_forward o true .complete
  · exact completeIo_forward h hk
  · unfold fireTimers; split <;> exact .of_eq rfl
  · exact .closeAll hk s.filesToClose

/-- The kernel completing an entry moves it from its ring to the ring's completions. -/
theorem kernelComplete_forward {dio : Bool} {i : Nat} {res : Int}
    (hs : s.kernelComplete dio i res = some s') : IoView.Forward s.ioView s'.ioView k := by
  unfold kernelComplete at hs
  split at hs <;> split at hs <;> cases hs
  · exact .complete (.refl _) (List.Subset.refl _) (Ring.complete_perm ‹_› res)
      (Ring.cq_subset_complete _ i res)
  · exact .complete (Ring.complete_perm ‹_› res) (Ring.cq_subset_complete _ i res) (.refl _)
      (List.Subset.refl _)

theorem takeIoResult_ioView (s : Exec α) (k' : Nat) : ∃ io,
    (CurrentTaskContext.takeIoResult s k').2.ioView =
      { s.ioView with io := io, ioResults := (s.ioResults.remove k').2 } := by
  unfold CurrentTaskContext.takeIoResult
  split <;> rename_i heq
  · exact ⟨s.io.remove k', by rw [heq]; rfl⟩
  · exact ⟨s.io, by rw [heq]; rfl⟩

/-- A quiet call keeps the I/O bookkeeping. -/
theorem QuietFrame.ioView (h : QuietFrame s s') : s'.ioView = s.ioView := by
  simp only [Exec.ioView, Ring.pending, h.io, h.ioQueue, h.dioQueue, h.ring, h.dioRing, h.ioResults,
    h.numDioRunning, h.filesClosing, h.closeFileIoId]

/-- The polled task's steps: `queue_io` creates its id, `take_io_result` takes its id, and no
other call touches the I/O bookkeeping. -/
theorem userStep_lifecycle (h : IoInv s) {t : Nat} {op : Op α} (hs : s.userStep t op = some s')
    (hk : k ≠ s.closeFileIoId) :
    Stage.Step (∃ e d, op = .queueIo e d k) (op = .takeIoResult k) (s.ioView.stage k)
      (s'.ioView.stage k) := by
  have h' := h.userStep hs
  cases op with
  | queueIo entry directIo ioId =>
    simp only [userStep] at hs
    split at hs
    · cases hs
    · cases hs
      have hq := IoView.Inv.queue_step h ‹_› hk t entry directIo
      cases directIo <;> refine hq.mono ?_ False.elim <;> rintro rfl <;> exact ⟨_, _, rfl⟩
  | takeIoResult ioId =>
    cases hs
    obtain ⟨io, e⟩ := takeIoResult_ioView s ioId
    rw [IoInv, e] at h'
    rw [e]
    exact (IoView.Inv.take_step (VecMap.keys_remove _ _) h h' hk).mono False.elim (by rintro rfl; rfl)
  | notifyWhen w => cases hs; exact .refl _
  | dropFile fd => cases hs; exact .refl _
  | _ => rw [(userStep_quiet hs trivial).ioView]; exact .refl _

/-- No step changes the reserved close id. -/
theorem step_closeFileIoId {a : Action α} (hs : s.step a = some s') :
    s'.closeFileIoId = s.closeFileIoId := by
  cases a with
  | sched o => exact (schedStep_frame hs).closeFileIoId
  | user op =>
    simp only [step] at hs
    split at hs
    · exact (userStep_keeps hs).closeFileIoId
    · cases hs
  | kernel dio i res =>
    simp only [step, kernelComplete] at hs
    split at hs <;> split at hs <;> cases hs <;> rfl
  | tick d => cases hs; rfl

/-- **Every step of the executor is a step of the lifecycle of every request.** -/
theorem IoInv.lifecycle (h : IoInv s) {a : Action α} (he : s.step a = some s')
    (hk : k ≠ s.closeFileIoId) :
    Stage.Step (∃ e d, a = .user (.queueIo e d k)) (a = .user (.takeIoResult k))
      (s.ioView.stage k) (s'.ioView.stage k) := by
  have h' := h.step he
  cases a with
  | sched o => exact ((schedStep_forward h he hk).step h' hk).mono False.elim False.elim
  | user op =>
    simp only [Exec.step] at he
    split at he
    · exact (userStep_lifecycle h he hk).mono (fun ⟨e, d, h⟩ => ⟨e, d, h ▸ rfl⟩) (fun h => h ▸ rfl)
    · cases he
  | kernel dio i res =>
    exact ((kernelComplete_forward he).step h' hk).mono False.elim False.elim
  | tick d => cases he; exact .refl _

/-- Along a run that takes no result of `k`, the invariant holds, the close id stays, and `k`
only moves forward. -/
theorem IoInv.advances (h : IoInv s)
    (hr : Relation.ReflTransGen (Moves fun _ a => a ≠ .user (.takeIoResult k)) s s')
    (hk : k ≠ s.closeFileIoId) {X : Stage} (hX : s.ioView.stage k = some X) :
    IoInv s' ∧ s'.closeFileIoId = s.closeFileIoId ∧ ∃ Y, s'.ioView.stage k = some Y ∧ X.Le Y := by
  induction hr with
  | refl => exact ⟨h, rfl, X, hX, .refl X⟩
  | @tail b c _ hm ih =>
    obtain ⟨hi, hc, Y, hY, hXY⟩ := ih
    obtain ⟨a, ha, he⟩ := hm
    have hstep := hi.lifecycle he (hc ▸ hk)
    refine ⟨hi.step he, (step_closeFileIoId he).trans hc, ?_⟩
    rw [hY] at hstep
    cases hc' : c.ioView.stage k with
    | none => rw [hc'] at hstep; exact absurd hstep.2 ha
    | some Z => rw [hc'] at hstep; exact ⟨Z, rfl, hXY.trans hstep⟩

/-! ### The lifecycle of every request -/

/-- **Every step of the executor is a step of the lifecycle of every request**, from every
reachable state, whatever the kernel answers and whatever the tasks do. A request stays where it
is or moves forward on the ring it was queued on: queued, written to the ring, completed, posted.
It appears, queued, only by `queue_io` of its id, and it leaves only from `io_results`, by
`take_io_result` of its id. (The reserved close id, under which every deferred close is queued,
names no request.) -/
theorem io_request_lifecycle {Adm : Exec α → Action α → Prop} (hs : Reachable Adm s)
    {a : Action α} (he : s.step a = some s') (hk : k ≠ s.closeFileIoId) :
    Stage.Step (∃ e d, a = .user (.queueIo e d k)) (a = .user (.takeIoResult k))
      (s.ioView.stage k) (s'.ioView.stage k) :=
  hs.ioInv.lifecycle he hk

/-- A read the root task queues on the buffered ring. -/
def rootRead : Entry := (Opcode.read 3 8 0).build

/-- The root task, polled at the first iteration of the loop, queues `rootRead` under the I/O id
`1`. -/
def readSchedule : List (Move Nat) := List.replicate 4 .sched ++ [.user (.queueIo rootRead false 1)]

/-- The state after `readSchedule` and the root's `Pending`. -/
def readPending : Exec Nat := afterSchedule (readSchedule ++ [.user .pending]) (Exec.boot Nat)

/-- After the poll, `try_submit_io` writes the read to the buffered ring and submits it. -/
theorem io_request_lifecycle_read_submitted :
    Reachable Lawful readPending ∧
    readPending.step (.sched okAll) = some (readPending.afterPoll okAll) ∧
    1 ≠ readPending.closeFileIoId ∧
    Stage.Step (∃ e d, (Action.sched okAll : Action Nat) = .user (.queueIo e d 1))
      ((Action.sched okAll : Action Nat) = .user (.takeIoResult 1))
      (readPending.ioView.stage 1) ((readPending.afterPoll okAll).ioView.stage 1) ∧
    readPending.ioView.stage 1 = some (.queued false) ∧
    (readPending.afterPoll okAll).ioView.stage 1 = some (.submitted false) :=
  have hs : Reachable Lawful readPending := reachable_afterSchedule (Exec.boot_initial Nat) (by decide)
  have he : readPending.step (.sched okAll) = some (readPending.afterPoll okAll) := rfl
  ⟨hs, he, by decide, io_request_lifecycle hs he (by decide), by decide, by decide⟩

/-- A schedule run is its first step, which `ok` admits, and the run of the rest. -/
theorem runActs_cons_eq_some {ok : Exec α → Action α → Prop} [∀ s a, Decidable (ok s a)]
    {a : Action α} {rest : List (Action α)} (h : runActs ok (a :: rest) s = some s') :
    ∃ s₁, ok s a ∧ s.step a = some s₁ ∧ runActs ok rest s₁ = some s' := by
  simp only [runActs] at h
  split at h
  · cases ha : s.step a with
    | none => simp [ha] at h
    | some s₁ => exact ⟨s₁, ‹_›, rfl, by simpa [ha] using h⟩
  · cases h

/-- A schedule run from `s` is a run of moves of `s`. -/
theorem runActs_moves {Adm ok : Exec α → Action α → Prop} [∀ s a, Decidable (ok s a)] :
    ∀ {acts : List (Action α)} {s s' : Exec α}, (∀ s₀ a, a ∈ acts → ok s₀ a → Adm s₀ a) →
      runActs ok acts s = some s' → Relation.ReflTransGen (Moves Adm) s s'
  | [], s, s', _, h => by cases h; exact .refl
  | a :: rest, s, s', hadm, h => by
    obtain ⟨s₁, hok, ha, h⟩ := runActs_cons_eq_some h
    exact .head ⟨a, hadm _ _ (List.mem_cons_self _ _) hok, ha⟩
      (runActs_moves (fun s₀ b hb => hadm s₀ b (List.mem_cons_of_mem _ hb)) h)

theorem moves_afterSchedule {Adm : Exec α → Action α → Prop} {ms : List (Move α)} {s : Exec α}
    (h : (runActs KeepsContract (ms.map Move.act) s).isSome)
    (hadm : ∀ s₀ a, a ∈ ms.map Move.act → s₀.KeepsContract a → Adm s₀ a) :
    Relation.ReflTransGen (Moves Adm) s (afterSchedule ms s) := by
  obtain ⟨s', hs'⟩ := Option.isSome_iff_exists.mp h
  rw [afterSchedule, hs', Option.getD_some]
  exact runActs_moves hadm hs'

/-- **A request is never lost and never moves back**: along every run from a reachable state in
which no task takes the result of `k`, a request at some stage stays at that stage or reaches a
later one of the same request, on the ring it was queued on or posted. -/
theorem io_request_only_advances {Adm : Exec α → Action α → Prop} (hs : Reachable Adm s)
    (hr : Relation.ReflTransGen (Moves fun _ a => a ≠ .user (.takeIoResult k)) s s')
    (hk : k ≠ s.closeFileIoId) {X : Stage} (hX : s.ioView.stage k = some X) :
    ∃ Y, s'.ioView.stage k = some Y ∧ X.Le Y :=
  (hs.ioInv.advances hr hk hX).2.2

/-- The state after `readSchedule`. -/
def readQueued : Exec Nat := afterSchedule readSchedule (Exec.boot Nat)

/-- The root task returns `Pending`; the scheduler writes the read to the buffered ring and
submits it, the kernel completes it, and the drain posts it. -/
def readPosted : Exec Nat :=
  afterSchedule [.user .pending, .sched, .kernel false 0 5, .sched, .sched, .sched] readQueued

theorem io_request_only_advances_read_posted :
    Reachable Lawful readQueued ∧
    Relation.ReflTransGen (Moves fun _ a => a ≠ .user (.takeIoResult 1)) readQueued readPosted ∧
    1 ≠ readQueued.closeFileIoId ∧ readQueued.ioView.stage 1 = some (.queued false) ∧
    (∃ Y, readPosted.ioView.stage 1 = some Y ∧ (Stage.queued false).Le Y) ∧
    readPosted.ioView.stage 1 = some .posted :=
  have hs : Reachable Lawful readQueued := reachable_afterSchedule (Exec.boot_initial Nat) (by decide)
  have hr : Relation.ReflTransGen (Moves fun _ a => a ≠ .user (.takeIoResult 1)) readQueued readPosted :=
    moves_afterSchedule (by decide) fun _ a ha _ => by rintro rfl; simp [Move.act] at ha
  have hX : readQueued.ioView.stage 1 = some (.queued false) := by decide
  ⟨hs, hr, by decide, hX, io_request_only_advances hs hr (by decide) hX, by decide⟩

end Exec

end Io2Proofs.Executor
