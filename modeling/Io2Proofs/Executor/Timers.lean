import Mathlib.Data.List.Zip
import Mathlib.Data.List.Perm.Basic
import Io2Proofs.Executor.Tables

/-!
# The deadline set and `notify_timers`

`NotifyWhen` keeps the registered deadlines as two vectors side by side, the instants in
`timer` and the task ids in `task_id`; `notify_when` pushes one of each. `notify_timers` walks
the vectors with an index that it advances past a deadline still in the future, and removes an
elapsed deadline with `swap_remove` on both vectors, without advancing (the last pair has moved
into the slot).

* `swapRemove` — `Vec::swap_remove`, and its four facts: a decomposition, what it does to a
  zipped pair of vectors, to the elements, and to the slots before the index;
* `notifyTimers` — `notify_timers`, with the loop's rounds bounded by a fuel that the length of
  the vectors provides;
* `notifyTimers_spec` — for every deadline set with vectors of equal length, clock reading and
  ready set, the call returns, the vectors keep equal lengths and hold exactly the pairs that
  have not elapsed, and the ready set gains exactly the ids of the elapsed pairs.

Instants are `Instant` readings, counted in `Nat`.
-/

namespace Io2Proofs.Executor

/-! ### `swap_remove` -/

section SwapRemove

variable {α β : Type}

/-- `Vec::swap_remove(i)` for an index in range: the last element is copied into slot `i` and
the vector is shortened by one. -/
def swapRemove (l : List α) (i : Nat) : List α :=
  match l.getLast? with
  | none => l
  | some x => (l.set i x).dropLast

/-- The decomposition every fact about `swapRemove` goes through: the slots before the index
stay, then comes the last element (if it was not the removed one), then the slots between. -/
theorem swapRemove_append_cons (p s : List α) (y : α) :
    swapRemove (p ++ y :: s) p.length = p ++ (s.getLast?.toList ++ s.dropLast) := by
  rcases List.eq_nil_or_concat s with rfl | ⟨t, z, rfl⟩
  · simp [swapRemove]
  · have h₁ : (y :: (t ++ [z])).getLast? = some z := List.getLast?_concat (y :: t)
    have h₂ : (z :: (t ++ [z])).dropLast = z :: t := @List.dropLast_concat _ (z :: t) z
    simp [swapRemove, h₁, h₂, List.set_append_right]

theorem exists_append_cons_of_lt {l : List α} {i : Nat} (h : i < l.length) :
    ∃ p y s, l = p ++ y :: s ∧ p.length = i ∧ l[i] = y :=
  ⟨l.take i, l[i], l.drop (i + 1), by simp, by simp; omega, rfl⟩

/-- The removed element and what is left are the vector, up to order. -/
theorem swapRemove_perm {l : List α} {i : Nat} (h : i < l.length) :
    (swapRemove l i ++ [l[i]]).Perm l := by
  obtain ⟨p, y, s, rfl, rfl, hy⟩ := exists_append_cons_of_lt h
  rw [hy, swapRemove_append_cons, List.append_assoc]
  refine List.Perm.append_left p ?_
  rcases List.eq_nil_or_concat s with rfl | ⟨t, z, rfl⟩
  · simp
  · simpa using ((List.perm_append_singleton y t).cons z).trans
      ((List.Perm.swap y z t).trans ((List.perm_append_singleton z t).cons y).symm)

/-- The slots before the index are untouched. -/
theorem take_swapRemove {l : List α} {i : Nat} (h : i < l.length) :
    (swapRemove l i).take i = l.take i := by
  obtain ⟨p, y, s, rfl, rfl, -⟩ := exists_append_cons_of_lt h
  rw [swapRemove_append_cons, List.take_left' rfl, List.take_left' rfl]

theorem length_swapRemove {l : List α} {i : Nat} (h : i < l.length) :
    (swapRemove l i).length = l.length - 1 := by
  obtain ⟨p, y, s, rfl, rfl, -⟩ := exists_append_cons_of_lt h
  rw [swapRemove_append_cons]
  rcases List.eq_nil_or_concat s with rfl | ⟨t, z, rfl⟩ <;> simp

/-- `swap_remove` at the same index on two vectors of one length is `swap_remove` on the
vector of pairs: each pair stays together. -/
theorem zip_swapRemove {a : List α} {b : List β} {i : Nat} (hab : a.length = b.length)
    (hi : i < a.length) : (swapRemove a i).zip (swapRemove b i) = swapRemove (a.zip b) i := by
  obtain ⟨p, y, s, rfl, rfl, -⟩ := exists_append_cons_of_lt hi
  obtain ⟨q, x, t, rfl, hq, -⟩ := exists_append_cons_of_lt (show p.length < b.length by omega)
  have hst : s.length = t.length := by simp at hab; omega
  rw [swapRemove_append_cons, ← hq, swapRemove_append_cons, hq, List.zip_append hq.symm,
    List.zip_append hq.symm, List.zip_cons_cons,
    show p.length = (p.zip q).length by simp [hq], swapRemove_append_cons]
  congr 1
  rcases List.eq_nil_or_concat s with rfl | ⟨s', z, rfl⟩ <;>
    rcases List.eq_nil_or_concat t with rfl | ⟨t', w, rfl⟩ <;> simp at hst ⊢
  simp [List.zip_append hst]

end SwapRemove

/-! ### `notify_timers` -/

/-- The deadline set `NotifyWhen`: the instants `timer` and the task ids `task_id`. -/
structure NotifyWhen where
  timer : List Nat
  taskId : List Nat

/-- The registered deadlines as (instant, task id) pairs. -/
def NotifyWhen.pairs (nw : NotifyWhen) : List (Nat × Nat) := nw.timer.zip nw.taskId

/-- The `loop` of `notify_timers` at index `i`, with `fuel` rounds left. `none` is a panic
(`task_id.swap_remove(i)` out of bounds), or the fuel running out, which `notifyLoop_spec`
rules out. -/
def notifyLoop (time : Nat) :
    Nat → Nat → NotifyWhen → VecMap Nat Unit → Option (NotifyWhen × VecMap Nat Unit)
  | 0, _, _, _ => none
  | fuel + 1, i, nw, toNotify =>
    if h : nw.timer.length ≤ i then some (nw, toNotify)
    else if time ≤ nw.timer[i] then notifyLoop time fuel (i + 1) nw toNotify
    else match nw.taskId[i]? with
      | none => none
      | some taskId =>
        notifyLoop time fuel i ⟨swapRemove nw.timer i, swapRemove nw.taskId i⟩
          (toNotify.insert taskId ())

/-- **`notify_timers(notify_when, to_notify)`** with `Instant::now()` reading `time`. Every
round either advances the index or shortens the vectors, so the length of the vectors plus one
rounds are enough. -/
def notifyTimers (time : Nat) (nw : NotifyWhen) (toNotify : VecMap Nat Unit) :
    Option (NotifyWhen × VecMap Nat Unit) :=
  notifyLoop time (nw.timer.length + 1) 0 nw toNotify

/-- The loop from index `i`, when the pairs before `i` have not elapsed: it returns with every
pair not elapsed, and what it removed (`gone`) are elapsed pairs whose ids joined the ready
set. -/
theorem notifyLoop_spec (time : Nat) : ∀ (fuel i : Nat) (nw : NotifyWhen) (tn : VecMap Nat Unit),
    nw.timer.length = nw.taskId.length → nw.timer.length - i < fuel →
    (∀ p ∈ nw.pairs.take i, time ≤ p.1) →
    ∃ nw' tn', notifyLoop time fuel i nw tn = some (nw', tn') ∧
      nw'.timer.length = nw'.taskId.length ∧ (∀ p ∈ nw'.pairs, time ≤ p.1) ∧
      ∃ gone : List (Nat × Nat), nw.pairs.Perm (nw'.pairs ++ gone) ∧ (∀ p ∈ gone, p.1 < time) ∧
        ∀ k, k ∈ tn'.keys ↔ k ∈ tn.keys ∨ k ∈ gone.map Prod.snd
  | 0, _, _, _, _, hfuel, _ => absurd hfuel (Nat.not_lt_zero _)
  | fuel + 1, i, nw, tn, hlen, hfuel, hpre => by
    simp only [notifyLoop]
    split
    · rename_i hi
      refine ⟨nw, tn, rfl, hlen, fun p hp => hpre p ?_, [], by simp, by simp, by simp⟩
      rwa [List.take_of_length_le (by simp [NotifyWhen.pairs]; omega)]
    · rename_i hi
      have hi' : i < nw.taskId.length := by omega
      have hip : i < nw.pairs.length := by simp [NotifyWhen.pairs]; omega
      have hpair : nw.pairs[i] = (nw.timer[i], nw.taskId[i]) := by simp [NotifyWhen.pairs]
      split
      · refine notifyLoop_spec time fuel (i + 1) nw tn hlen (by omega) fun p hp => ?_
        rw [List.take_succ, List.mem_append] at hp
        rcases hp with hp | hp
        · exact hpre p hp
        · simp only [List.getElem?_eq_getElem hip, hpair, Option.toList_some,
            List.mem_singleton] at hp
          subst hp; assumption
      · rename_i hlate
        simp only [List.getElem?_eq_getElem hi']
        have hz : (⟨swapRemove nw.timer i, swapRemove nw.taskId i⟩ : NotifyWhen).pairs =
            swapRemove nw.pairs i := zip_swapRemove hlen (by omega)
        obtain ⟨nw', tn', hrun, hlen', hkept, gone, hperm, hgone, hkeys⟩ :=
          notifyLoop_spec time fuel i ⟨swapRemove nw.timer i, swapRemove nw.taskId i⟩
            (tn.insert nw.taskId[i] ()) (by simp [length_swapRemove, hi', hlen])
            (by simp [length_swapRemove, hi', hlen]; omega)
            (by rw [hz, take_swapRemove hip]; exact hpre)
        refine ⟨nw', tn', hrun, hlen', hkept, gone ++ [(nw.timer[i], nw.taskId[i])], ?_, ?_, ?_⟩
        · rw [hz] at hperm
          refine (swapRemove_perm hip).symm.trans ?_
          rw [hpair, ← List.append_assoc]
          exact hperm.append_right _
        · simp only [List.mem_append, List.mem_singleton]
          rintro p (hp | rfl)
          · exact hgone p hp
          · exact Nat.lt_of_not_le hlate
        · intro k
          rw [hkeys k]
          simp only [VecMap.mem_keys_insert, List.map_append, List.mem_append, List.map_cons,
            List.map_nil, List.mem_singleton]
          tauto

/-- With no deadline registered, `notify_timers` changes nothing. -/
theorem notifyTimers_nil (time : Nat) {nw : NotifyWhen} (h : nw.timer = []) (tn : VecMap Nat Unit) :
    notifyTimers time nw tn = some (nw, tn) := by
  simp [notifyTimers, notifyLoop, h]

/-- The ids of a deadline set whose vectors have one length are the ids of its pairs. -/
theorem NotifyWhen.mem_taskId {nw : NotifyWhen} (h : nw.timer.length = nw.taskId.length) (k : Nat) :
    k ∈ nw.taskId ↔ k ∈ nw.pairs.map Prod.snd := by
  rw [NotifyWhen.pairs, List.map_snd_zip _ _ h.ge]

/-- What the scheduler needs of `notify_timers`: the call returns, keeps the vectors of one
length, keeps only ids that were registered, and readies only ids that were ready or
registered. -/
theorem notifyTimers_some (time : Nat) (nw : NotifyWhen) (tn : VecMap Nat Unit)
    (hlen : nw.timer.length = nw.taskId.length) :
    ∃ nw' tn', notifyTimers time nw tn = some (nw', tn') ∧ nw'.timer.length = nw'.taskId.length ∧
      (∀ k ∈ nw'.taskId, k ∈ nw.taskId) ∧ ∀ k ∈ tn'.keys, k ∈ tn.keys ∨ k ∈ nw.taskId := by
  obtain ⟨nw', tn', hrun, hlen', -, gone, hperm, -, hkeys⟩ :=
    notifyLoop_spec time (nw.timer.length + 1) 0 nw tn hlen (by omega) (by simp)
  have hsub : nw'.pairs.map Prod.snd ++ gone.map Prod.snd ⊆ nw.pairs.map Prod.snd := by
    simpa using (hperm.map Prod.snd).symm.subset
  refine ⟨nw', tn', hrun, hlen', fun k hk => ?_, fun k hk => ?_⟩
  · rw [NotifyWhen.mem_taskId hlen]
    exact hsub (List.mem_append_left _ ((NotifyWhen.mem_taskId hlen' k).mp hk))
  · rw [NotifyWhen.mem_taskId hlen]
    exact ((hkeys k).mp hk).imp_right fun h => hsub (List.mem_append_right _ h)

/-- **`notify_timers` moves exactly the elapsed deadlines into the ready set.** For every
deadline set whose two vectors have one length, every clock reading `time` and every ready set,
the call returns; afterwards the vectors still have one length and hold, as (instant, task id)
pairs kept together, exactly the pairs of the input whose instant is not before `time`; and the
ready set is the old one together with the ids of the pairs whose instant is before `time`. -/
theorem notifyTimers_spec (time : Nat) (nw : NotifyWhen) (toNotify : VecMap Nat Unit)
    (hlen : nw.timer.length = nw.taskId.length) :
    ∃ nw' toNotify', notifyTimers time nw toNotify = some (nw', toNotify') ∧
      nw'.timer.length = nw'.taskId.length ∧
      (nw'.timer.zip nw'.taskId).Perm ((nw.timer.zip nw.taskId).filter fun p => time ≤ p.1) ∧
      ∀ k, k ∈ toNotify'.keys ↔
        k ∈ toNotify.keys ∨ ∃ t, (t, k) ∈ nw.timer.zip nw.taskId ∧ t < time := by
  obtain ⟨nw', tn', hrun, hlen', hkept, gone, hperm, hgone, hkeys⟩ :=
    notifyLoop_spec time (nw.timer.length + 1) 0 nw toNotify hlen (by omega) (by simp)
  refine ⟨nw', tn', hrun, hlen', ?_, fun k => ?_⟩
  · have hf := hperm.filter fun p => decide (time ≤ p.1)
    have h₁ : nw'.pairs.filter (fun p => decide (time ≤ p.1)) = nw'.pairs :=
      List.filter_eq_self.mpr (by simpa using hkept)
    have h₂ : gone.filter (fun p => decide (time ≤ p.1)) = [] :=
      List.filter_eq_nil_iff.mpr (by simpa using hgone)
    rw [List.filter_append, h₁, h₂, List.append_nil] at hf
    exact hf.symm
  · rw [hkeys k, List.mem_map]
    refine or_congr_right ⟨fun ⟨p, hp, hk⟩ => ⟨p.1, ?_, hgone p hp⟩, fun ⟨t, ht, hlt⟩ => ?_⟩
    · have : p ∈ nw.pairs := hperm.mem_iff.mpr (List.mem_append_right _ hp)
      rwa [← hk]
    · rcases List.mem_append.mp (hperm.mem_iff.mp ht) with h | h
      · exact absurd (hkept _ h) (by simpa using hlt)
      · exact ⟨_, h, rfl⟩

/-- Two deadlines, at instants `3` and `7`, read at `5`. -/
theorem notifyTimers_spec_at_five :
    ([3, 7] : List Nat).length = ([1, 2] : List Nat).length ∧
    ∃ nw' toNotify', notifyTimers 5 ⟨[3, 7], [1, 2]⟩ VecMap.empty = some (nw', toNotify') ∧
      nw'.timer.length = nw'.taskId.length ∧
      (nw'.timer.zip nw'.taskId).Perm (([3, 7].zip [1, 2]).filter fun p => 5 ≤ p.1) ∧
      ∀ k, k ∈ toNotify'.keys ↔
        k ∈ (VecMap.empty : VecMap Nat Unit).keys ∨ ∃ t, (t, k) ∈ [3, 7].zip [1, 2] ∧ t < 5 :=
  ⟨rfl, notifyTimers_spec 5 ⟨[3, 7], [1, 2]⟩ VecMap.empty rfl⟩

end Io2Proofs.Executor
