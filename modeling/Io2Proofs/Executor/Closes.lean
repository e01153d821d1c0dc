import Io2Proofs.Executor.Lifecycle

/-!
# Deferred closes

Dropping a `File` does not close its descriptor: `File::drop` pushes it on the thread-local
`FILES_TO_CLOSE`, and at the end of each iteration `run` turns every descriptor there into a
close entry on the buffered queue, tagged with the reserved I/O id and counted in
`files_closing`. The kernel closes the descriptor when it completes that entry, and the loop
does not end while a close is outstanding.

* `closeFd`, `Exec.deferredCloses` — the descriptors whose close is outstanding: in
  `FILES_TO_CLOSE`, in a reserved close entry the buffered ring holds, or in one still queued;
* `Action.dropped`, `Exec.closedBy`, `Exec.closedAlong` — the descriptor a step drops, and the
  descriptors whose close entry the kernel completes;
* `Exec.deferredCloses_step` — every step keeps the outstanding closes, but for a drop, which
  adds its descriptor, and the kernel completing a close entry, which retires its own;
* `Exec.dropped_files_closed_once` — so along every run the closes outstanding at the end and the
  closes completed are, as a multiset, those outstanding at the start and the descriptors
  dropped; once the loop has ended nothing is outstanding, and the kernel has closed each of
  those descriptors exactly once. The files that the futures left in the task table own are
  dropped only when `run` returns (`Exec.returnRun`): their descriptors stay in
  `FILES_TO_CLOSE`, and this `run` never closes them.
-/

namespace Io2Proofs.Executor

variable {α : Type}

/-- The descriptor an entry closes, when it is a close tagged with the reserved id `closeId`. -/
def closeFd (closeId : Nat) (e : Entry) : Option Int :=
  if e.userData = closeId then
    match e.op with
    | .close fd => some fd
    | _ => none
  else none

theorem closeFd_of_ne {closeId : Nat} {e : Entry} (h : e.userData ≠ closeId) :
    closeFd closeId e = none :=
  if_neg h

@[simp] theorem closeFd_close (closeId : Nat) (fd : Int) :
    closeFd closeId ((Opcode.close fd).build.withUserData closeId) = some fd :=
  if_pos rfl

/-- Taking out the `i`-th entry takes its descriptor, if any, out of the descriptors the entries
close. -/
theorem filterMap_closeFd_eraseIdx (closeId : Nat) {l : List Entry} {i : Nat} (hi : i < l.length) :
    ((l.eraseIdx i).filterMap (closeFd closeId) ++ (closeFd closeId l[i]).toList).Perm
      (l.filterMap (closeFd closeId)) := by
  conv_rhs => rw [← List.take_append_drop i l, ← List.getElem_cons_drop l i hi]
  rw [List.eraseIdx_eq_take_drop_succ, List.filterMap_append, List.filterMap_append,
    List.filterMap_cons]
  cases closeFd closeId l[i] with
  | none => simp
  | some fd => simpa using (List.perm_append_singleton fd _).append_left _

/-- The descriptor `File::drop` hands to `FILES_TO_CLOSE`, if the action is the polled task
dropping a file. -/
def Action.dropped : Action α → List Int
  | .user (.dropFile fd) => [fd]
  | _ => []

namespace Exec

variable {s s' : Exec α}

/-- **The deferred closes outstanding**: the descriptors in `FILES_TO_CLOSE`, then those of the
reserved close entries in the buffered ring (in flight or written to its submission region),
then those of the ones still on the buffered queue. -/
def deferredCloses (s : Exec α) : List Int :=
  s.filesToClose ++ (s.ring.pending ++ s.ioQueue).filterMap (closeFd s.closeFileIoId)

/-- The descriptor whose close the kernel completes, if the action is the kernel completing a
reserved close entry in flight on the buffered ring. -/
def closedBy (s : Exec α) : Action α → List Int
  | .kernel false i _ => (s.ring.inflight[i]?.bind (closeFd s.closeFileIoId)).toList
  | _ => []

/-- The descriptors whose close the kernel completes along the actions `acts` from `s`. -/
def closedAlong : List (Action α) → Exec α → List Int
  | [], _ => []
  | a :: acts, s => s.closedBy a ++ ((s.step a).map (closedAlong acts)).getD []

@[simp] theorem goto_deferredCloses (pc : Pc) : (s.goto pc).deferredCloses = s.deferredCloses := rfl

/-! ### The scheduler's steps -/

theorem waitPass_deferredCloses (answer : Submitted) :
    (s.waitPass answer).deferredCloses = s.deferredCloses := by
  unfold waitPass waitSubmit
  repeat' split
  all_goals rfl

/-- `try_submit_io` moves entries from the queue into the ring in order. -/
theorem submitBoth_deferredCloses (o : Oracle) (forceDio : Bool) (next : Pc) :
    (s.submitBoth o forceDio next).deferredCloses = s.deferredCloses := by
  unfold submitBoth
  split
  · rename_i hq _
    simp only [deferredCloses, (trySubmitIo_conserve hq).1]
  · rfl

/-- The completion drain empties the completion queues only. -/
theorem completeIo_deferredCloses : s.completeIo.deferredCloses = s.deferredCloses := by
  unfold completeIo
  split
  · rfl
  · split
    · rfl
    · rename_i hdrain
      rw [(drainCqes_frame hdrain).1]
      rfl

/-- The `FILES_TO_CLOSE` loop moves every descriptor there into a close entry on the queue. -/
theorem closeFiles_deferredCloses : s.closeFiles.deferredCloses.Perm s.deferredCloses := by
  simp only [deferredCloses, closeFiles, List.nil_append, List.filterMap_append, List.filterMap_map,
    Function.comp_def, closeFd_close, List.filterMap_some, List.append_assoc]
  rw [← List.append_assoc]
  exact List.perm_append_comm

/-- A scheduler step keeps the deferred closes; only the `FILES_TO_CLOSE` loop reorders them. -/
theorem schedStep_deferredCloses {o : Oracle} (hs : s.schedStep o = some s') :
    s'.deferredCloses.Perm s.deferredCloses := by
  unfold schedStep at hs
  split at hs <;> cases hs
  · exact .of_eq rfl
  · exact .of_eq rfl
  · exact .of_eq (waitPass_deferredCloses _)
  · exact .of_eq (by unfold drainStart; split <;> rfl)
  · refine .of_eq ?_
    unfold pollNext pollTask
    repeat' split
    all_goals rfl
  · refine .of_eq ?_
    unfold afterPoll
    split
    · rfl
    · exact submitBoth_deferredCloses _ _ _
  · exact .of_eq (submitBoth_deferredCloses _ _ _)
  · exact .of_eq completeIo_deferredCloses
  · exact .of_eq (by unfold fireTimers; split <;> rfl)
  · exact closeFiles_deferredCloses

/-! ### The tasks' steps and the kernel -/

/-- A task's step keeps the deferred closes but for `File::drop`, which adds its descriptor: an
entry the task queues carries a fresh I/O id, never the reserved one. -/
theorem userStep_deferredCloses (h : IoInv s) {t : Nat} {op : Op α} (hs : s.userStep t op = some s') :
    s'.deferredCloses.Perm (s.deferredCloses ++ (Action.user op).dropped) := by
  cases op
  case dropFile fd =>
    cases hs
    simp only [deferredCloses, File.drop, Action.dropped, List.append_assoc]
    exact List.perm_append_comm.append_left _
  all_goals refine .of_eq (Eq.trans ?_ (List.append_nil _).symm)
  case queueIo entry directIo ioId =>
    simp only [userStep] at hs
    split at hs
    · cases hs
    · rename_i hfresh
      cases hs
      have hne : ioId ≠ s.closeFileIoId := fun e => hfresh (e ▸ h.close_mem)
      unfold CurrentTaskContext.queueIo
      cases directIo
      · simp [deferredCloses, closeFd_of_ne (e := entry.withUserData ioId) hne]
      · rfl
  case takeIoResult ioId => cases hs; unfold CurrentTaskContext.takeIoResult; split <;> rfl
  case notifyWhen w => cases hs; rfl
  all_goals
    have hq := userStep_quiet hs trivial
    simp only [deferredCloses, hq.filesToClose, hq.ring, hq.ioQueue, hq.closeFileIoId]

/-- The kernel completing the `i`-th entry in flight on the buffered ring retires its descriptor
if it is a reserved close; a completion on the direct ring leaves the deferred closes alone. -/
theorem kernelComplete_deferredCloses {dio : Bool} {i : Nat} {res : Int}
    (hs : s.kernelComplete dio i res = some s') :
    (s'.deferredCloses ++ s.closedBy (.kernel dio i res)).Perm s.deferredCloses := by
  unfold kernelComplete at hs
  cases dio
  · simp only [Bool.false_eq_true, if_false] at hs
    split at hs
    · rename_i hi
      cases hs
      have hperm := (filterMap_closeFd_eraseIdx s.closeFileIoId hi).count_eq
      simp only [deferredCloses, closedBy, Ring.complete, List.getElem?_eq_getElem hi,
        Option.some_bind, Ring.pending]
      rw [List.perm_iff_count]
      intro x
      have := hperm x
      simp only [List.filterMap_append, List.count_append] at this ⊢
      omega
    · cases hs
  · simp only [if_true] at hs
    split at hs
    · cases hs; exact .of_eq (List.append_nil _)
    · cases hs

/-! ### Steps and runs -/

/-- **Every step keeps the deferred closes**, but for `File::drop`, which adds its descriptor,
and the kernel completing a reserved close entry, which retires its own. -/
theorem deferredCloses_step (h : IoInv s) {a : Action α} (hs : s.step a = some s') :
    (s'.deferredCloses ++ s.closedBy a).Perm (s.deferredCloses ++ a.dropped) := by
  cases a with
  | sched o => simpa only [closedBy, Action.dropped, List.append_nil] using schedStep_deferredCloses hs
  | user op =>
    simp only [step] at hs
    split at hs
    · rw [show s.closedBy (.user op) = [] from rfl, List.append_nil]
      exact userStep_deferredCloses h hs
    · cases hs
  | kernel dio i res =>
    rw [show (Action.kernel dio i res : Action α).dropped = [] from rfl, List.append_nil]
    exact kernelComplete_deferredCloses hs
  | tick d => cases hs; rfl

/-- Along a run, the deferred closes at its end and the closes the kernel completed are, as a
multiset, the deferred closes at its start and the descriptors the run dropped. -/
theorem deferredCloses_run {Adm ok : Exec α → Action α → Prop} [∀ s a, Decidable (ok s a)] :
    ∀ {acts : List (Action α)} {s s' : Exec α}, Reachable Adm s →
      (∀ s₀ a, a ∈ acts → ok s₀ a → Adm s₀ a) → runActs ok acts s = some s' →
      (s'.deferredCloses ++ closedAlong acts s).Perm (s.deferredCloses ++ acts.flatMap Action.dropped)
  | [], s, s', _, _, h => by cases h; rfl
  | a :: rest, s, s', hs, hadm, h => by
    obtain ⟨s₁, hok, ha, h⟩ := runActs_cons_eq_some h
    have ih := (deferredCloses_run (.step hs (hadm _ _ (List.mem_cons_self _ _) hok) ha)
      (fun s₀ b hb => hadm s₀ b (List.mem_cons_of_mem _ hb)) h).count_eq
    have hstep := (deferredCloses_step hs.ioInv ha).count_eq
    simp only [closedAlong, ha, Option.map_some', Option.getD_some, List.flatMap_cons]
    rw [List.perm_iff_count]
    intro x
    have := ih x
    have := hstep x
    simp only [List.count_append] at *
    omega

/-- Once the loop has ended no close is outstanding: `FILES_TO_CLOSE` is empty, and
`files_closing`, which counts the reserved close entries, is zero. -/
theorem deferredCloses_exited (h : IoInv s) (he : ExitInv s) (hx : s.pc = .exited) :
    s.deferredCloses = [] := by
  obtain ⟨-, hfc, hft⟩ := he hx
  have hcount : s.filesClosing = ((s.ioQueue ++ s.ring.pending).map Entry.userData ++
      s.ring.cq.map Cqe.userData).count s.closeFileIoId := h.filesClosing_eq
  simp only [deferredCloses, hft, List.nil_append, List.filterMap_eq_nil_iff]
  intro e he'
  refine closeFd_of_ne fun hid => ?_
  have : 0 < ((s.ioQueue ++ s.ring.pending).map Entry.userData ++
      s.ring.cq.map Cqe.userData).count s.closeFileIoId :=
    List.count_pos_iff.mpr (List.mem_append_left _ (List.mem_map.mpr
      ⟨e, List.perm_append_comm.subset he', hid⟩))
  omega

/-- **Every file dropped while the loop runs is closed exactly once.** Along every run from a
reachable state, the closes outstanding at the end and the closes the kernel completed are, as a
multiset, the closes outstanding at the start and the descriptors `File::drop` handed over. If
the loop has ended, the closes the kernel completed are exactly those descriptors, each as often
as it was outstanding or dropped; and when `run` then returns, the files the futures left in the
task table owned are dropped with them, and their descriptors stay in `FILES_TO_CLOSE`, closed
by no step of this `run`. -/
theorem dropped_files_closed_once {Adm ok : Exec α → Action α → Prop} [∀ s a, Decidable (ok s a)]
    {acts : List (Action α)} (hs : Reachable Adm s) (hadm : ∀ s₀ a, a ∈ acts → ok s₀ a → Adm s₀ a)
    (h : runActs ok acts s = some s') :
    (s'.deferredCloses ++ closedAlong acts s).Perm (s.deferredCloses ++ acts.flatMap Action.dropped) ∧
    (s'.pc = .exited →
      (closedAlong acts s).Perm (s.deferredCloses ++ acts.flatMap Action.dropped) ∧
      ∀ fds, ∃ r, s'.returnRun fds = some r ∧ r.filesToClose = fds) := by
  have hrun := deferredCloses_run hs hadm h
  refine ⟨hrun, fun hx => ?_⟩
  have hs' := runActs_reachable hs hadm h
  obtain ⟨hout, -, hftc⟩ := hs'.exitInv hx
  obtain ⟨v, hv⟩ := Option.isSome_iff_exists.mp hout
  refine ⟨?_, fun fds => ⟨_, returnRun_eq _ hv fds, by rw [hftc, List.nil_append]⟩⟩
  rwa [deferredCloses_exited hs'.ioInv hs'.exitInv hx, List.nil_append] at hrun

/-- The root drops the descriptor `3` and returns `Ready(0)`. The loop queues the close and
submits it, the kernel completes it, and the loop drains the completion and ends. -/
def closeSchedule : List (Move Nat) :=
  [.sched, .sched, .sched, .sched, .user (.dropFile 3), .user (.ready 0)] ++
    List.replicate 10 .sched ++ [.kernel false 0 0] ++ List.replicate 4 .sched

/-- The state the loop ends in after `closeSchedule`. -/
def closedState : Exec Nat := afterSchedule closeSchedule (Exec.boot Nat)

/-- The kernel closes `3` once; when `run` returns, a descriptor `5` that a future left in the
table owned stays in `FILES_TO_CLOSE`. -/
theorem dropped_files_closed_once_root_drops :
    runActs KeepsContract (closeSchedule.map Move.act) (Exec.boot Nat) = some closedState ∧
    closedState.pc = .exited ∧ closedAlong (closeSchedule.map Move.act) (Exec.boot Nat) = [3] ∧
    (closedAlong (closeSchedule.map Move.act) (Exec.boot Nat)).Perm
      ((Exec.boot Nat).deferredCloses ++ (closeSchedule.map Move.act).flatMap Action.dropped) ∧
    ∃ r, closedState.returnRun [5] = some r ∧ r.filesToClose = [5] :=
  have h : runActs KeepsContract (closeSchedule.map Move.act) (Exec.boot Nat) = some closedState := rfl
  have hx : closedState.pc = .exited := by decide
  have hd := (dropped_files_closed_once (.init (Exec.boot_initial Nat)) Move.lawful h).2 hx
  ⟨h, hx, by decide, hd.1, hd.2 [5]⟩

end Exec

end Io2Proofs.Executor
