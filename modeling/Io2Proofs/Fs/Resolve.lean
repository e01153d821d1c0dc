import Io2Proofs.Fs.File
import Io2Proofs.Executor.Results

/-!
# What an I/O future resolves with

The futures of `fs/file.rs` resolve with what `take_io_result` hands them for their I/O id. Over
whole runs of the executor, that is a result the kernel reported for an entry carrying the id:

* `io_future_resolves_with_kernel_result` — along every run from the state `run` starts its loop
  in, a poll of an I/O future that resolves answers `Err(-r)` for a negative `r` and its output
  of `r` otherwise, for a result `r` the kernel reported for an entry carrying the future's I/O
  id.
-/

namespace Io2Proofs.Fs

open Io2Proofs.Executor Io2Proofs.Executor.Exec

variable {α β : Type}

/-- A poll that resolves takes a result posted under the future's I/O id. -/
theorem ioPoll_ready {entry : Option Entry} {out : Int → β} {s s' : Exec α} {t id k : Nat}
    {ioId' : Option Nat} {v : Except Int β}
    (hp : ioPoll entry out s t (some id) k = some (ioId', .ready v, s')) :
    ∃ r, (id, r) ∈ s.heldResults ∧ v = if r < 0 then .error (-r) else .ok (out r) := by
  simp only [ioPoll, CurrentTaskContext.takeIoResult, VecMap.remove] at hp
  cases hg : s.ioResults.get? id with
  | none => simp [hg] at hp
  | some r =>
    simp only [hg, Option.some.injEq, Prod.mk.injEq, Poll.ready.injEq] at hp
    exact ⟨r, List.mem_append_left _ (VecMap.mem_entries_of_get? hg), hp.2.1.symm⟩

/-- **An I/O future resolves with the kernel's result for its own I/O id.** Along every run from
the state `run` starts its loop in, whatever the kernel answers and whatever the tasks do, a poll
of an I/O future (`Close`, `Open`, `Read`, `Write`, `Statx`, `SyncAll`) holding the I/O id `id`
that resolves answers `Err(-r)` for a negative `r` and the future's output of `r` otherwise, for
a result `r` the kernel reported, along the run, for an entry carrying `id`. -/
theorem io_future_resolves_with_kernel_result {ok : Exec α → Action α → Prop}
    [∀ s a, Decidable (ok s a)] {acts : List (Action α)} {s₀ s s' : Exec α} (hi : s₀.Initial)
    (h : runActs ok acts s₀ = some s) (entry : Option Entry) (out : Int → β) {t id k : Nat}
    {ioId' : Option Nat} {v : Except Int β}
    (hp : ioPoll entry out s t (some id) k = some (ioId', .ready v, s')) :
    ∃ r, (id, r) ∈ along reportedBy acts s₀ ∧ v = if r < 0 then .error (-r) else .ok (out r) := by
  obtain ⟨r, hr, hv⟩ := ioPoll_ready hp
  have hrun := (heldResults_run (Reachable.init hi) (fun _ _ _ h => h) h).subset
    (List.mem_append_left _ hr)
  rw [heldResults_initial hi, List.nil_append] at hrun
  exact ⟨r, hrun, hv⟩

/-- The run of `takeSchedule` up to the root's second poll: the read's result `5` is posted. -/
def postSchedule : List (Move Nat) :=
  readSchedule ++ [.user .pending, .sched, .kernel false 0 5] ++ List.replicate 9 .sched

/-- The state after `postSchedule`, the root polled again. -/
def resultPosted : Exec Nat := afterSchedule postSchedule (Exec.boot Nat)

/-- The root's `Read` of `8` bytes at `0` from the descriptor `3`, polled again, resolves with
the `5` bytes the kernel reported. -/
theorem io_future_resolves_with_kernel_result_read :
    runActs KeepsContract (postSchedule.map Move.act) (Exec.boot Nat) = some resultPosted ∧
    ioPoll (some rootRead) Int.toNat resultPosted 1 (some 1) 2 =
      some (some 1, .ready (.ok 5),
        { resultPosted with ioResults := (resultPosted.ioResults.remove 1).2,
                            io := resultPosted.io.remove 1 }) ∧
    ∃ r, (1, r) ∈ along reportedBy (postSchedule.map Move.act) (Exec.boot Nat) ∧
      (.ok 5 : Except Int Nat) = if r < 0 then .error (-r) else .ok r.toNat :=
  have h : runActs KeepsContract (postSchedule.map Move.act) (Exec.boot Nat) = some resultPosted :=
    rfl
  have hp : ioPoll (some rootRead) Int.toNat resultPosted 1 (some 1) 2 =
      some (some 1, .ready (.ok 5),
        { resultPosted with ioResults := (resultPosted.ioResults.remove 1).2,
                            io := resultPosted.io.remove 1 }) := rfl
  ⟨h, hp, io_future_resolves_with_kernel_result (Exec.boot_initial Nat) h _ _ hp⟩

end Io2Proofs.Fs
