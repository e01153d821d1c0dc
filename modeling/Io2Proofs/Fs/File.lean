import Io2Proofs.Executor.IoRecords
import Mathlib.Algebra.Group.Nat.Basic
import Mathlib.Algebra.Group.Int

/-!
# The I/O futures of `fs/file.rs`

`Close`, `Open`, `Read`, `Write`, `Statx` and `SyncAll` are polled one way. At the first poll
(`io_id` is `None`) the future builds its submission entry, queues it with `queue_io` and keeps
the I/O id; at every later poll it asks `take_io_result` for the id's result, is `Pending` while
there is none, and resolves with `Err(io::Error::from_raw_os_error(-r))` for a negative result
`r` and with its output otherwise. The six differ in the entry they build and in the output
they make of `r`; `Read` and `Write` also convert the buffer's length to a `u32` with
`try_into().unwrap()`.

The futures call `queue_io` with the entry alone, while the method also takes `direct_io`; the
model passes `false`, the buffered ring, as the one-argument calls intend.

* `ioPoll` — the poll the six share; each future's poll is `ioPoll` at its own entry and output;
* `ioPoll_step` — a poll is a step of the polled task, so a run that polls the future is a run of
  the executor;
* `io_future_poll_protocol` — the protocol of every poll in every reachable state;
* `Read.poll_panics`, `Write.poll_panics` — the first poll of a `Read` or a `Write` of `2^32`
  bytes or more panics.
-/

namespace Io2Proofs.Fs

open Io2Proofs.Executor

/-- `Poll<T>`. -/
inductive Poll (β : Type)
  | pending
  | ready (v : β)
  deriving DecidableEq, Repr

variable {α β : Type}

/-- **The poll of an I/O future** of the task `t` whose `io_id` is `ioId`, when the I/O slab
hands out the key `k`. At the first poll the future builds `entry` (`none`: building it panics)
and queues it on the buffered ring; at a later poll it takes the result of its id, if one was
posted, and makes `ok r` of a result `r ≥ 0`. The future's new `io_id`, the answer (an
`io::Result`, `Err(io::Error::from_raw_os_error(errno))` being `.error errno`), and the state;
`none` is a panic. -/
def ioPoll (entry : Option Entry) (ok : Int → β) (s : Exec α) (t : Nat) (ioId : Option Nat)
    (k : Nat) : Option (Option Nat × Poll (Except Int β) × Exec α) :=
  match ioId with
  | none => entry.map fun e => (some k, .pending, CurrentTaskContext.queueIo s t e false k)
  | some id =>
    match CurrentTaskContext.takeIoResult s id with
    | (none, s') => some (some id, .pending, s')
    | (some r, s') => some (some id, .ready (if r < 0 then .error (-r) else .ok (ok r)), s')

/-! ### The six futures -/

/-- `libc::AT_FDCWD`. -/
def atFdcwd : Int := -100

/-- `libc::AT_EMPTY_PATH`. -/
def atEmptyPath : Nat := 0x1000

/-- `File`: its descriptor. -/
structure File where
  fd : Int
  deriving DecidableEq, Repr

/-- `libc::open_how`: the flags and the mode. -/
structure OpenHow where
  flags : Nat
  mode : Nat
  deriving DecidableEq, Repr

/-- `Open` before its first poll: the path as `LocalCString::from_path` writes it and the
`open_how`. -/
structure Open where
  path : List UInt8
  how : OpenHow
  deriving DecidableEq, Repr

/-- `File::open(path, flags, mode)`: the path's bytes and a final NUL, `flags as u64` and
`mode as u64`. -/
def File.open (path : List UInt8) (flags mode : Int) : Open :=
  ⟨path ++ [0], ⟨(flags % 2 ^ 64).toNat, (mode % 2 ^ 64).toNat⟩⟩

/-- `Close::poll` of `file.close()`: `opcode::Close` on the descriptor, then `Ok(())`. -/
def Close.poll (fd : Int) :
    Exec α → Nat → Option Nat → Nat → Option (Option Nat × Poll (Except Int Unit) × Exec α) :=
  ioPoll (some (Opcode.close fd).build) fun _ => ()

/-- `Open::poll`: `opcode::OpenAt2` at `AT_FDCWD`, then `Ok(File { fd })` with the result as
descriptor. -/
def Open.poll (fut : Open) :
    Exec α → Nat → Option Nat → Nat → Option (Option Nat × Poll (Except Int File) × Exec α) :=
  ioPoll (some (Opcode.openAt2 atFdcwd fut.path fut.how.flags fut.how.mode).build) fun r => ⟨r⟩

/-- `Read::poll` of `file.read(buf, offset)`, `len` being `buf.len()`: `opcode::Read` with the
length as a `u32`, then the byte count `io_result.try_into().unwrap()`. -/
def Read.poll (fd : Int) (len offset : Nat) :
    Exec α → Nat → Option Nat → Nat → Option (Option Nat × Poll (Except Int Nat) × Exec α) :=
  ioPoll (if len < 2 ^ 32 then some (Opcode.read fd len offset).build else none) Int.toNat

/-- `Write::poll` of `file.write(buf, offset)`, `len` being `buf.len()`: `opcode::Write` with the
length as a `u32`, then the byte count. -/
def Write.poll (fd : Int) (len offset : Nat) :
    Exec α → Nat → Option Nat → Nat → Option (Option Nat × Poll (Except Int Nat) × Exec α) :=
  ioPoll (if len < 2 ^ 32 then some (Opcode.write fd len offset).build else none) Int.toNat

/-- `Statx::poll` of `file.statx()`: `opcode::Statx` on the descriptor with `AT_EMPTY_PATH`,
then the `statx` record the kernel filled in (left out of the model). -/
def Statx.poll (fd : Int) :
    Exec α → Nat → Option Nat → Nat → Option (Option Nat × Poll (Except Int Unit) × Exec α) :=
  ioPoll (some (Opcode.statx fd atEmptyPath).build) fun _ => ()

/-- `SyncAll::poll` of `file.sync_all()`: `opcode::Fsync` on the descriptor, then `Ok(())`. -/
def SyncAll.poll (fd : Int) :
    Exec α → Nat → Option Nat → Nat → Option (Option Nat × Poll (Except Int Unit) × Exec α) :=
  ioPoll (some (Opcode.fsync fd).build) fun _ => ()

/-- Below `2^32` bytes, `Read` builds its entry like the other futures. -/
theorem Read.poll_of_lt {fd : Int} {len : Nat} (offset : Nat) (h : len < 2 ^ 32) :
    (Read.poll fd len offset : Exec α → _) = ioPoll (some (Opcode.read fd len offset).build) Int.toNat := by
  rw [Read.poll, if_pos h]

theorem Write.poll_of_lt {fd : Int} {len : Nat} (offset : Nat) (h : len < 2 ^ 32) :
    (Write.poll fd len offset : Exec α → _) = ioPoll (some (Opcode.write fd len offset).build) Int.toNat := by
  rw [Write.poll, if_pos h]

/-- From `2^32` bytes on, the first poll of a `Read` panics at `try_into().unwrap()`, before
anything is queued. -/
theorem Read.poll_panics {fd : Int} {len : Nat} (offset : Nat) (h : 2 ^ 32 ≤ len) (s : Exec α)
    (t k : Nat) : Read.poll fd len offset s t none k = none := by
  rw [Read.poll, if_neg (Nat.not_lt.mpr h)]; rfl

theorem Write.poll_panics {fd : Int} {len : Nat} (offset : Nat) (h : 2 ^ 32 ≤ len) (s : Exec α)
    (t k : Nat) : Write.poll fd len offset s t none k = none := by
  rw [Write.poll, if_neg (Nat.not_lt.mpr h)]; rfl

/-! ### One poll -/

section OnePoll

variable {entry : Option Entry} {ok : Int → β} {s s' : Exec α} {t : Nat}

/-- A poll is a step of the polled task: `queue_io` with the key the slab hands out, or
`take_io_result`. -/
theorem ioPoll_step (hpc : s.pc = .running t) {ioId ioId' : Option Nat} {k : Nat}
    {p : Poll (Except Int β)} (hk : ioId = none → k ∉ s.io)
    (h : ioPoll entry ok s t ioId k = some (ioId', p, s')) :
    ∃ op : Op α, (Action.user op).isReady = false ∧ s.step (.user op) = some s' := by
  cases ioId with
  | none =>
    obtain ⟨e, -, he⟩ := Option.map_eq_some'.mp h
    cases he
    exact ⟨.queueIo e false k, rfl, by simp [Exec.step, hpc, Exec.userStep, hk rfl]⟩
  | some id =>
    refine ⟨.takeIoResult id, rfl, ?_⟩
    simp only [Exec.step, hpc, Exec.userStep]
    simp only [ioPoll] at h
    split at h <;> rename_i heq <;> cases h <;> rw [heq]

/-- The state a poll reaches from a reachable state is reachable. -/
theorem ioPoll_reachable (hs : Exec.Reachable Exec.Valid s) (hpc : s.pc = .running t) {ioId ioId' : Option Nat}
    {k : Nat} {p : Poll (Except Int β)} (hk : ioId = none → k ∉ s.io)
    (h : ioPoll entry ok s t ioId k = some (ioId', p, s')) : Exec.Reachable Exec.Valid s' := by
  obtain ⟨op, -, he⟩ := ioPoll_step hpc hk h
  exact .step hs (show s.Valid (.user op) from trivial) he

end OnePoll

/-- **The protocol of the I/O futures.** In every reachable state in which the future's task is
polled: the first poll queues exactly one entry, the future's, on the buffered queue with its
new I/O id as user data and a record naming the task, and is `Pending`; a later poll keeps the
id and queues nothing; it is `Pending` exactly when no result for the id was posted; when a
result `r` was posted it resolves with `Err(-r)` for `r < 0` and with the output of `r`
otherwise, after removing the I/O record; and the operation is then no longer queued, in flight
or waiting to be drained. The state after the poll is reachable, so the same holds at the next
poll of the future. -/
theorem io_future_poll_protocol {s : Exec α} {t : Nat} (e : Entry) (ok : Int → β)
    (hs : Exec.Reachable Exec.Valid s) (hpc : s.pc = .running t) (ioId : Option Nat) (k : Nat)
    (hk : ioId = none → k ∉ s.io) :
    ∃ ioId' p s', ioPoll (some e) ok s t ioId k = some (ioId', p, s') ∧ Exec.Reachable Exec.Valid s' ∧
      (ioId = none → ioId' = some k ∧ p = .pending ∧ s'.ioQueue = s.ioQueue ++ [e.withUserData k] ∧
        s'.dioQueue = s.dioQueue ∧ s'.numDioRunning = s.numDioRunning ∧ s'.io.get k = some t) ∧
      ∀ id, ioId = some id → ioId' = some id ∧ s'.ioQueue = s.ioQueue ∧ s'.dioQueue = s.dioQueue ∧
        s'.numDioRunning = s.numDioRunning ∧ (p = .pending ↔ id ∉ s.ioResults.keys) ∧
        ∀ r, s.ioResults.get? id = some r →
          p = .ready (if r < 0 then .error (-r) else .ok (ok r)) ∧ s'.io.get id = none ∧
          id ∉ (s.ioQueue ++ s.dioQueue ++ s.ring.pending ++ s.dioRing.pending).map Entry.userData ++
            (s.ring.cq ++ s.dioRing.cq).map Cqe.userData := by
  cases ioId with
  | none =>
    have h : ioPoll (some e) ok s t none k =
        some (some k, .pending, CurrentTaskContext.queueIo s t e false k) := rfl
    refine ⟨_, _, _, h, ioPoll_reachable hs hpc hk h, fun _ => ⟨rfl, rfl, rfl, rfl, rfl, ?_⟩, nofun⟩
    simp [CurrentTaskContext.queueIo, Slab.get_insert t (hk rfl)]
  | some id =>
    have hkeys := VecMap.get?_isSome s.ioResults id
    cases hr : s.ioResults.get? id with
    | none =>
      have h : ioPoll (some e) ok s t (some id) k =
          some (some id, .pending, { s with ioResults := (s.ioResults.remove id).2 }) := by
        simp only [ioPoll, CurrentTaskContext.takeIoResult, VecMap.remove, hr]
      refine ⟨_, _, _, h, ioPoll_reachable hs hpc hk h, nofun, fun _ hid => ?_⟩
      cases hid
      exact ⟨rfl, rfl, rfl, rfl, by simpa [hr] using hkeys, fun r hr' => by simp [hr] at hr'⟩
    | some r =>
      have h : ioPoll (some e) ok s t (some id) k =
          some (some id, .ready (if r < 0 then .error (-r) else .ok (ok r)),
            { s with ioResults := (s.ioResults.remove id).2, io := s.io.remove id }) := by
        simp only [ioPoll, CurrentTaskContext.takeIoResult, VecMap.remove, hr]
      have hmem : id ∈ s.ioResults.keys := hkeys.mp (by simp [hr])
      refine ⟨_, _, _, h, ioPoll_reachable hs hpc hk h, nofun, fun _ hid => ?_⟩
      cases hid
      refine ⟨rfl, rfl, rfl, rfl, by simp [hmem], fun r' hr' => ?_⟩
      cases hr.symm.trans hr'
      exact ⟨rfl, by simp [Slab.get_remove], hs.ioInv.posted_not_staged hmem⟩

/-- The root task at its first poll, with the default configuration. -/
def rootPolled : Exec Nat := Exec.afterSchedule (List.replicate 4 .sched) (Exec.boot Nat)

/-- The root's `Close` of the descriptor `3`: the first poll queues it under the I/O id `1`
and is `Pending`; the loop submits it, the kernel answers `-9` (`EBADF`), and the drain posts
the result before the root is polled again. -/
def closeFutureSchedule : List (Exec.Move Nat) :=
  List.replicate 4 .sched ++ [.user (.queueIo (Opcode.close 3).build false 1), .user .pending,
    .sched, .kernel false 0 (-9)] ++ List.replicate 9 .sched

/-- The root polled again after `closeFutureSchedule`, with the result `-9` posted for `1`. -/
def closeAnswered : Exec Nat := Exec.afterSchedule closeFutureSchedule (Exec.boot Nat)

/-- At its first poll the root's `Close` queues its entry under `1`; at the poll after the
kernel's answer `-9` is posted it resolves with `Err(9)` and takes the record `1` out. -/
theorem io_future_poll_protocol_close_polls :
    (Exec.Reachable Exec.Valid rootPolled ∧ rootPolled.pc = .running 1 ∧
    ((none : Option Nat) = none → 1 ∉ rootPolled.io) ∧
    ∃ ioId' p s', ioPoll (some (Opcode.close 3).build) (fun _ => ()) rootPolled 1 none 1 =
        some (ioId', p, s') ∧ Exec.Reachable Exec.Valid s' ∧
      ((none : Option Nat) = none → ioId' = some 1 ∧ p = .pending ∧
        s'.ioQueue = rootPolled.ioQueue ++ [(Opcode.close 3).build.withUserData 1] ∧
        s'.dioQueue = rootPolled.dioQueue ∧ s'.numDioRunning = rootPolled.numDioRunning ∧
        s'.io.get 1 = some 1) ∧
      ∀ id, (none : Option Nat) = some id → ioId' = some id ∧ s'.ioQueue = rootPolled.ioQueue ∧
        s'.dioQueue = rootPolled.dioQueue ∧ s'.numDioRunning = rootPolled.numDioRunning ∧
        (p = .pending ↔ id ∉ rootPolled.ioResults.keys) ∧
        ∀ r, rootPolled.ioResults.get? id = some r →
          p = .ready (if r < 0 then .error (-r) else .ok ()) ∧ s'.io.get id = none ∧
          id ∉ (rootPolled.ioQueue ++ rootPolled.dioQueue ++ rootPolled.ring.pending ++
            rootPolled.dioRing.pending).map Entry.userData ++
            (rootPolled.ring.cq ++ rootPolled.dioRing.cq).map Cqe.userData) ∧
    (Exec.Reachable Exec.Valid closeAnswered ∧ closeAnswered.pc = .running 1 ∧
    closeAnswered.ioResults.get? 1 = some (-9) ∧
    ∃ ioId' p s', ioPoll (some (Opcode.close 3).build) (fun _ => ()) closeAnswered 1 (some 1) 2 =
        some (ioId', p, s') ∧ Exec.Reachable Exec.Valid s' ∧
      ((some 1 : Option Nat) = none → ioId' = some 2 ∧ p = .pending ∧
        s'.ioQueue = closeAnswered.ioQueue ++ [(Opcode.close 3).build.withUserData 2] ∧
        s'.dioQueue = closeAnswered.dioQueue ∧ s'.numDioRunning = closeAnswered.numDioRunning ∧
        s'.io.get 2 = some 1) ∧
      ∀ id, (some 1 : Option Nat) = some id → ioId' = some id ∧ s'.ioQueue = closeAnswered.ioQueue ∧
        s'.dioQueue = closeAnswered.dioQueue ∧ s'.numDioRunning = closeAnswered.numDioRunning ∧
        (p = .pending ↔ id ∉ closeAnswered.ioResults.keys) ∧
        ∀ r, closeAnswered.ioResults.get? id = some r →
          p = .ready (if r < 0 then .error (-r) else .ok ()) ∧ s'.io.get id = none ∧
          id ∉ (closeAnswered.ioQueue ++ closeAnswered.dioQueue ++ closeAnswered.ring.pending ++
            closeAnswered.dioRing.pending).map Entry.userData ++
            (closeAnswered.ring.cq ++ closeAnswered.dioRing.cq).map Cqe.userData) :=
  have hs : Exec.Reachable Exec.Valid rootPolled :=
    (Exec.reachable_afterSchedule (Exec.boot_initial Nat) (by decide)).valid
  have hpc : rootPolled.pc = .running 1 := by decide
  have hk : (none : Option Nat) = none → 1 ∉ rootPolled.io := fun _ => by decide
  have hs' : Exec.Reachable Exec.Valid closeAnswered :=
    (Exec.reachable_afterSchedule (Exec.boot_initial Nat) (by decide)).valid
  have hpc' : closeAnswered.pc = .running 1 := by decide
  ⟨⟨hs, hpc, hk, io_future_poll_protocol (Opcode.close 3).build (fun _ => ()) hs hpc none 1 hk⟩,
    ⟨hs', hpc', by decide,
      io_future_poll_protocol (Opcode.close 3).build (fun _ => ()) hs' hpc' (some 1) 2 nofun⟩⟩

/-- A `Read` into a buffer of `2^32` bytes, polled by the root task in a lawful run: the first
poll panics, and nothing is queued. -/
theorem read_of_four_gib_buffer_panics :
    Exec.Reachable Exec.Lawful rootPolled ∧ rootPolled.pc = .running 1 ∧
      Read.poll 3 (2 ^ 32) 0 rootPolled 1 none 1 = none :=
  ⟨Exec.reachable_afterSchedule (Exec.boot_initial Nat) (by decide), by decide,
    Read.poll_panics 0 le_rfl rootPolled 1 1⟩

end Io2Proofs.Fs
