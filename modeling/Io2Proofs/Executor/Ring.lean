import Mathlib.Data.List.Basic

/-!
# The ring adapter: submission entries, the rings, and `try_submit_io`

`executor.rs` talks to the kernel through two `io_uring` instances, the buffered ring and the
direct (polled) ring. What the scheduler needs of a ring is where each submission entry is:
written to the submission region `sq` and not yet taken by the kernel, taken and in flight, or
completed and posted to the completion region `cq`.

* `Ring` — a ring: its submission region (never longer than its capacity), the entries the
  kernel has taken, and the completions it has posted;
* `Submitted` — the kernel's answer to one `submitter.submit()`;
* `trySubmitIo` — `try_submit_io`: drain the in-memory queue into the region, submitting
  whenever the region is full, and once more at the end when forced or when the region is not
  empty;
* `trySubmitIo_spec` — for every queue, region, flag and sequence of answers that are `Ok` (at
  least one entry taken) or `EBUSY`, the call returns without panicking, the entries keep their
  order (taken ++ region ++ queue is the region ++ queue it started from), and the queue is
  emptied unless some `submit` answered `EBUSY`.
-/

namespace Io2Proofs.Executor

/-! ### Entries and rings -/

/-- The operations the runtime builds with `opcode::…::new(..).build()`. Pointers into memory
owned by the future (buffers, `open_how`, `statx`) are left out. -/
inductive Opcode
  | close (fd : Int)
  | openAt2 (dirfd : Int) (path : List UInt8) (flags mode : Nat)
  | read (fd : Int) (len offset : Nat)
  | write (fd : Int) (len offset : Nat)
  | statx (fd : Int) (flags : Nat)
  | fsync (fd : Int)
  deriving DecidableEq, Repr

/-- A submission queue entry `squeue::Entry`: its operation and its 64-bit user data. -/
structure Entry where
  op : Opcode
  userData : Nat
  deriving DecidableEq, Repr

/-- `op.build()`: an entry whose user data is still `0`. -/
def Opcode.build (op : Opcode) : Entry := ⟨op, 0⟩

/-- `entry.user_data(d)`. -/
def Entry.withUserData (e : Entry) (d : Nat) : Entry := { e with userData := d }

@[simp] theorem Entry.withUserData_userData (e : Entry) (d : Nat) :
    (e.withUserData d).userData = d := rfl

/-- A completion queue entry `cqueue::Entry`: the user data of the entry it completes, and the
result the kernel reports. -/
structure Cqe where
  userData : Nat
  result : Int
  deriving DecidableEq, Repr

/-- **A ring.** `sq` is the submission region, `inflight` the entries the kernel has taken and
not yet completed, `cq` the completions posted and not yet drained. The capacity is positive:
`io_uring_setup` refuses a ring of zero entries, so `IoUring::builder().build(0)` fails and no
such ring reaches the scheduler. -/
structure Ring where
  capacity : Nat
  sq : List Entry
  inflight : List Entry
  cq : List Cqe
  capacity_pos : 0 < capacity
  sq_length_le : sq.length ≤ capacity

/-- A ring of `depth` entries as `IoUring::builder().build(depth)` sets it up. -/
def Ring.empty (depth : Nat) (h : 0 < depth) : Ring := ⟨depth, [], [], [], h, Nat.zero_le _⟩

/-- `sq.push(&entry)` into a region that has room. -/
def Ring.push (r : Ring) (e : Entry) (h : r.sq.length < r.capacity) : Ring :=
  { r with sq := r.sq ++ [e], sq_length_le := by simpa using h }

/-- The kernel takes the first `n` entries of the submission region. -/
def Ring.take (r : Ring) (n : Nat) : Ring :=
  { r with sq := r.sq.drop n, inflight := r.inflight ++ r.sq.take n,
           sq_length_le := by simpa using le_trans (Nat.sub_le _ _) r.sq_length_le }

/-- The kernel completes the `i`-th entry in flight with the result `res`: it posts a
completion that carries the entry's user data. -/
def Ring.complete (r : Ring) (i : Nat) (res : Int) : Ring :=
  match r.inflight[i]? with
  | none => r
  | some e => { r with inflight := r.inflight.eraseIdx i, cq := r.cq ++ [⟨e.userData, res⟩] }

/-- The completions drained by one iteration of `run` (`for cqe in cq` consumes them). -/
def Ring.clearCq (r : Ring) : Ring := { r with cq := [] }

/-- Every entry the ring holds that the kernel has not completed, oldest first. -/
def Ring.pending (r : Ring) : List Entry := r.inflight ++ r.sq

section RingOps

variable (r : Ring)

@[simp] theorem Ring.push_capacity (e : Entry) (h) : (r.push e h).capacity = r.capacity := rfl
@[simp] theorem Ring.push_cq (e : Entry) (h) : (r.push e h).cq = r.cq := rfl
@[simp] theorem Ring.push_inflight (e : Entry) (h) : (r.push e h).inflight = r.inflight := rfl
@[simp] theorem Ring.push_pending (e : Entry) (h) : (r.push e h).pending = r.pending ++ [e] := by
  simp [Ring.push, Ring.pending]

@[simp] theorem Ring.take_capacity (n : Nat) : (r.take n).capacity = r.capacity := rfl
@[simp] theorem Ring.take_cq (n : Nat) : (r.take n).cq = r.cq := rfl
@[simp] theorem Ring.take_sq (n : Nat) : (r.take n).sq = r.sq.drop n := rfl
@[simp] theorem Ring.take_inflight (n : Nat) :
    (r.take n).inflight = r.inflight ++ r.sq.take n := rfl
@[simp] theorem Ring.take_pending (n : Nat) : (r.take n).pending = r.pending := by
  simp [Ring.take, Ring.pending]

@[simp] theorem Ring.clearCq_cq : r.clearCq.cq = [] := rfl
@[simp] theorem Ring.clearCq_sq : r.clearCq.sq = r.sq := rfl
@[simp] theorem Ring.clearCq_inflight : r.clearCq.inflight = r.inflight := rfl
@[simp] theorem Ring.clearCq_pending : r.clearCq.pending = r.pending := rfl

end RingOps

/-- Completing an entry moves its user data from the entries in flight to the completions. -/
theorem Ring.complete_perm {r : Ring} {i : Nat} (hi : i < r.inflight.length) (res : Int) :
    ((r.complete i res).pending.map Entry.userData ++ (r.complete i res).cq.map Cqe.userData).Perm
      (r.pending.map Entry.userData ++ r.cq.map Cqe.userData) := by
  simp only [Ring.complete, List.getElem?_eq_getElem hi, Ring.pending, List.eraseIdx_eq_take_drop_succ]
  conv_rhs => rw [← List.take_append_drop i r.inflight, ← List.getElem_cons_drop _ i hi]
  simp only [List.map_append, List.map_cons, List.map_nil, List.append_assoc]
  refine List.Perm.append_left _ ?_
  simpa [List.append_assoc] using List.perm_append_singleton (r.inflight[i]).userData
    ((r.inflight.drop (i + 1)).map Entry.userData ++ r.sq.map Entry.userData ++ r.cq.map Cqe.userData)

/-- A completion only adds to the ring's completions. -/
theorem Ring.cq_subset_complete (r : Ring) (i : Nat) (res : Int) : r.cq ⊆ (r.complete i res).cq := by
  unfold Ring.complete
  split
  · exact List.Subset.refl _
  · exact List.subset_append_left _ _

/-! ### `try_submit_io` -/

/-- `libc::EBUSY`. -/
def ebusy : Nat := 16

/-- The kernel's answer to one `submitter.submit()`: `Ok` with the number of entries it took,
or an error number. -/
inductive Submitted
  | ok (taken : Nat)
  | err (errno : Nat)
  deriving DecidableEq, Repr

/-- The answers `try_submit_io` is written for: `Ok` having taken at least one entry (all of
them when the region is shorter), or `EBUSY`. Any other error is a panic of the code. -/
def Submitted.OkOrBusy : Submitted → Prop
  | .ok taken => 0 < taken
  | .err errno => errno = ebusy

/-- The `while !io_queue.is_empty()` loop of `try_submit_io`. `kernel n` answers the `n`-th
`submit` of the call. The result is the rest of the queue, the ring, and the number of
`submit`s made; `none` is a panic. -/
def submitLoop (kernel : Nat → Submitted) : List Entry → Ring → Nat → Option (List Entry × Ring × Nat)
  | [], r, n => some ([], r, n)
  | e :: q, r, n =>
    if hfull : r.sq.length = r.capacity then
      match kernel n with
      | .ok taken =>
        if hfull' : (r.take taken).sq.length = (r.take taken).capacity then none
        else submitLoop kernel q ((r.take taken).push e
          (Nat.lt_of_le_of_ne (r.take taken).sq_length_le hfull')) (n + 1)
      | .err errno => if errno = ebusy then some (e :: q, r, n + 1) else none
    else submitLoop kernel q (r.push e (Nat.lt_of_le_of_ne r.sq_length_le hfull)) n

/-- **`try_submit_io(io_queue, ring, force_submit)`.** -/
def trySubmitIo (kernel : Nat → Submitted) (ioQueue : List Entry) (ring : Ring)
    (forceSubmit : Bool) : Option (List Entry × Ring × Nat) :=
  match submitLoop kernel ioQueue ring 0 with
  | none => none
  | some (q, r, n) =>
    if forceSubmit || !r.sq.isEmpty then
      match kernel n with
      | .ok taken => some (q, r.take taken, n + 1)
      | .err errno => if errno = ebusy then some (q, r, n + 1) else none
    else some (q, r, n)

/-! ### What the loop keeps -/

section Loop

variable {kernel : Nat → Submitted}

/-- The loop only moves entries: from the queue into the region, and from the region to the
kernel; the completions and the capacity are untouched, and the calls are counted upwards. -/
theorem submitLoop_conserve {Q q : List Entry} {r r' : Ring} {n n' : Nat}
    (h : submitLoop kernel Q r n = some (q, r', n')) :
    r'.pending ++ q = r.pending ++ Q ∧ r.inflight <+: r'.inflight ∧ r'.cq = r.cq ∧
      r'.capacity = r.capacity ∧ n ≤ n' := by
  induction Q generalizing r n with
  | nil => simp only [submitLoop, Option.some.injEq, Prod.mk.injEq] at h; obtain ⟨rfl, rfl, rfl⟩ := h; simp
  | cons e Q ih =>
    simp only [submitLoop] at h
    split at h
    · split at h
      · split at h
        · cases h
        · obtain ⟨h1, h2, h3, h4, h5⟩ := ih h
          refine ⟨by simpa using h1, ?_, by simpa using h3, by simpa using h4, by omega⟩
          exact (List.prefix_append _ _).trans (by simpa using h2)
      · split at h
        · simp only [Option.some.injEq, Prod.mk.injEq] at h; obtain ⟨rfl, rfl, rfl⟩ := h; simp
        · cases h
    · obtain ⟨h1, h2, h3, h4, h5⟩ := ih h
      exact ⟨by simpa using h1, by simpa using h2, by simpa using h3, by simpa using h4, h5⟩

/-- With the answers the code is written for, a full region has room again after a `submit`
that answered `Ok`: the loop never reaches its "push to sq while it was full" panic. -/
theorem submitLoop_isSome (hk : ∀ i, (kernel i).OkOrBusy) (Q : List Entry) (r : Ring) (n : Nat) :
    (submitLoop kernel Q r n).isSome := by
  induction Q generalizing r n with
  | nil => simp [submitLoop]
  | cons e Q ih =>
    simp only [submitLoop]
    split
    · have hn := hk n
      split
      · rename_i taken hkn
        rw [hkn] at hn
        have : ¬ (r.take taken).sq.length = (r.take taken).capacity := by
          simp only [Ring.take_sq, List.length_drop, Ring.take_capacity]
          have := r.capacity_pos
          simp only [Submitted.OkOrBusy] at hn
          omega
        simp only [this, dite_false]
        exact ih _ _
      · rename_i errno hkn
        rw [hkn] at hn
        simp [show errno = ebusy from hn]
    · exact ih _ _

/-- The loop empties the queue unless a `submit` it made answered `EBUSY`. -/
theorem submitLoop_empty {Q q : List Entry} {r r' : Ring} {n n' : Nat}
    (h : submitLoop kernel Q r n = some (q, r', n'))
    (hb : ∀ i, n ≤ i → i < n' → kernel i ≠ .err ebusy) : q = [] := by
  induction Q generalizing r n with
  | nil => simp only [submitLoop, Option.some.injEq, Prod.mk.injEq] at h; exact h.1.symm
  | cons e Q ih =>
    simp only [submitLoop] at h
    split at h
    · split at h
      · split at h
        · cases h
        · exact ih h fun i hi hi' => hb i (by omega) hi'
      · rename_i errno hkn
        split at h
        · simp only [Option.some.injEq, Prod.mk.injEq] at h
          obtain ⟨-, -, rfl⟩ := h
          exact absurd (by subst errno; exact hkn) (hb n le_rfl (by omega))
        · cases h
    · exact ih h hb

end Loop

/-- `try_submit_io` only moves entries from the queue into the ring, and leaves the ring's
completions alone. -/
theorem trySubmitIo_conserve {kernel : Nat → Submitted} {Q q : List Entry} {r r' : Ring}
    {forceSubmit : Bool} {n : Nat} (h : trySubmitIo kernel Q r forceSubmit = some (q, r', n)) :
    r'.pending ++ q = r.pending ++ Q ∧ r'.cq = r.cq := by
  unfold trySubmitIo at h
  split at h
  · cases h
  · rename_i q₀ r₀ n₀ hl
    obtain ⟨hc, -, hcq, -, -⟩ := submitLoop_conserve hl
    split at h
    · split at h
      · cases h; exact ⟨by simpa using hc, by simpa using hcq⟩
      · split at h
        · cases h; exact ⟨hc, hcq⟩
        · cases h
    · cases h; exact ⟨hc, hcq⟩

/-- **`try_submit_io` conserves the entries and does not panic.** For every queue, ring and
flag, and every sequence of answers that are `Ok` with at least one entry taken or `EBUSY`, the
call returns; the entries the kernel took during the call, then the region, then the queue, are
the region and the queue it started from; and the queue is empty afterwards unless one of the
call's `submit`s answered `EBUSY`. -/
theorem trySubmitIo_spec (kernel : Nat → Submitted) (hk : ∀ i, (kernel i).OkOrBusy)
    (ioQueue : List Entry) (ring : Ring) (forceSubmit : Bool) :
    ∃ q' ring' calls, trySubmitIo kernel ioQueue ring forceSubmit = some (q', ring', calls) ∧
      (∃ taken, ring'.inflight = ring.inflight ++ taken ∧
        taken ++ ring'.sq ++ q' = ring.sq ++ ioQueue) ∧
      ((∀ i < calls, kernel i ≠ .err ebusy) → q' = []) := by
  obtain ⟨⟨q, r, n⟩, hl⟩ := Option.isSome_iff_exists.mp (submitLoop_isSome hk ioQueue ring 0)
  obtain ⟨hc, ⟨taken, ht⟩, -, -, -⟩ := submitLoop_conserve hl
  have hkeep : taken ++ r.sq ++ q = ring.sq ++ ioQueue := List.append_cancel_left
    (show ring.inflight ++ (taken ++ r.sq ++ q) = ring.inflight ++ (ring.sq ++ ioQueue) by
      simpa [Ring.pending, ← ht] using hc)
  have hempty : ∀ calls, n ≤ calls → (∀ i < calls, kernel i ≠ .err ebusy) → q = [] :=
    fun calls hn hb => submitLoop_empty hl fun i _ hi => hb i (by omega)
  simp only [trySubmitIo, hl]
  split
  · have hn := hk n
    split
    · rename_i m _
      refine ⟨_, _, _, rfl, ⟨taken ++ r.sq.take m, by simp [← ht], ?_⟩, hempty _ (by omega)⟩
      simpa [List.append_assoc] using hkeep
    · rename_i errno hkn
      rw [hkn] at hn
      simp only [Submitted.OkOrBusy] at hn
      simp only [hn, if_true]
      exact ⟨_, _, _, rfl, ⟨taken, ht.symm, hkeep⟩, hempty _ (by omega)⟩
  · exact ⟨_, _, _, rfl, ⟨taken, ht.symm, hkeep⟩, hempty _ le_rfl⟩

/-- Two entries through a ring of one entry, the kernel answering `Ok(1)` every time. -/
theorem trySubmitIo_spec_two_entries :
    (∀ _ : Nat, (Submitted.ok 1).OkOrBusy) ∧
    ∃ q' ring' calls, trySubmitIo (fun _ => .ok 1) [(Opcode.fsync 3).build, (Opcode.fsync 4).build]
        ⟨1, [], [], [], Nat.one_pos, Nat.zero_le 1⟩ true = some (q', ring', calls) ∧
      (∃ taken, ring'.inflight = [] ++ taken ∧
        taken ++ ring'.sq ++ q' = [] ++ [(Opcode.fsync 3).build, (Opcode.fsync 4).build]) ∧
      ((∀ i < calls, Submitted.ok 1 ≠ .err ebusy) → q' = []) :=
  ⟨fun _ => Nat.one_pos, trySubmitIo_spec (fun _ => .ok 1) (fun _ => Nat.one_pos) _ _ true⟩

end Io2Proofs.Executor
