import Mathlib.Logic.Function.Basic
import Mathlib.Data.List.Basic

/-!
# The executor's tables: `VecMap` and `Slab`

`executor.rs` keeps its state in two containers of the crate, `crate::vecmap::VecMap` and
`crate::slab::Slab`, whose sources are not part of this development. Both are modelled from
the spec (sections 3, 4.1 and 4.3), with only the operations `executor.rs` calls.

* `VecMap K V` — a vector of key–value pairs, one pair per key: the ready set `to_notify`
  (`VecMap<Key, ()>`) and the result table `io_results` (`VecMap<Key, i32>`);
* `Slab V` — the task table and the I/O record table: a key stays valid until it is removed,
  and `insert` hands out a key that is not in use. Which key is the slab's choice (it may be a
  key removed before), so it is an argument of `insert`, and the callers require it to be
  free.
-/

namespace Io2Proofs.Executor

/-! ### `VecMap` -/

/-- Modelled from the spec ("Ready set ... Duplicates collapse (insertion is idempotent)";
"A parallel keyed mapping holds completion results keyed by io-id"): `VecMap<K, V>`, the pairs
in insertion order. -/
structure VecMap (K V : Type) where
  entries : List (K × V)
  deriving DecidableEq

namespace VecMap

variable {K V : Type}

/-- An empty map (`with_capacity_in`, `clear`). -/
def empty : VecMap K V := ⟨[]⟩

/-- `iter_keys()`. -/
def keys (m : VecMap K V) : List K := m.entries.map Prod.fst

/-- `is_empty()`. -/
def isEmpty (m : VecMap K V) : Bool := m.entries.isEmpty

@[simp] theorem keys_empty : (empty : VecMap K V).keys = [] := rfl

@[simp] theorem isEmpty_iff (m : VecMap K V) : m.isEmpty = true ↔ m.keys = [] := by
  simp [isEmpty, keys]

variable [DecidableEq K]

/-- `get(&k)`. -/
def get? (m : VecMap K V) (k : K) : Option V := (m.entries.find? (·.1 = k)).map Prod.snd

/-- `insert(k, v)`: the value of a present key is replaced, a new key is appended. -/
def insert (m : VecMap K V) (k : K) (v : V) : VecMap K V :=
  if k ∈ m.keys then ⟨m.entries.map fun p => if p.1 = k then (k, v) else p⟩
  else ⟨m.entries ++ [(k, v)]⟩

/-- `remove(&k)`: the value that was there, and the map without the key. -/
def remove (m : VecMap K V) (k : K) : Option V × VecMap K V :=
  (m.get? k, ⟨m.entries.filter (·.1 ≠ k)⟩)

theorem keys_insert (m : VecMap K V) (k : K) (v : V) :
    (m.insert k v).keys = if k ∈ m.keys then m.keys else m.keys ++ [k] := by
  unfold insert keys
  split
  · simp only [List.map_map]
    congr 1
    funext p
    by_cases hp : p.1 = k <;> simp [hp]
  · simp

@[simp] theorem mem_keys_insert (m : VecMap K V) (k k' : K) (v : V) :
    k' ∈ (m.insert k v).keys ↔ k' = k ∨ k' ∈ m.keys := by
  by_cases hk : k ∈ m.keys
  · simp only [keys_insert, hk, if_true]
    exact ⟨Or.inr, fun h => h.elim (· ▸ hk) id⟩
  · simp [keys_insert, hk, or_comm]

@[simp] theorem keys_remove (m : VecMap K V) (k : K) :
    (m.remove k).2.keys = m.keys.filter (· ≠ k) := by
  simp [remove, keys, List.filter_map, Function.comp_def]

theorem get?_isSome (m : VecMap K V) (k : K) : (m.get? k).isSome ↔ k ∈ m.keys := by
  simp [get?, keys, List.find?_isSome]

end VecMap

/-! ### `Slab` -/

/-- Modelled from the spec (4.1: "A stable-index container supporting insert→id, remove(id),
get(id). An id remains valid until explicit removal ... Get on a removed id returns absent"):
`Slab<V>`, its occupied keys with their values. -/
structure Slab (V : Type) where
  entries : List (Nat × V)
  deriving DecidableEq

namespace Slab

variable {V : Type}

/-- An empty slab (`with_capacity_in`). -/
def empty : Slab V := ⟨[]⟩

/-- The keys in use. -/
def keys (s : Slab V) : List Nat := s.entries.map Prod.fst

/-- `get(k)`. -/
def get (s : Slab V) (k : Nat) : Option V := s.entries.lookup k

/-- `insert(v)` when the slab hands out the key `k`, which its callers require to be free. -/
def insert (s : Slab V) (k : Nat) (v : V) : Slab V := ⟨s.entries ++ [(k, v)]⟩

/-- `remove(k)`. -/
def remove (s : Slab V) (k : Nat) : Slab V := ⟨s.entries.filter (·.1 ≠ k)⟩

instance : Membership Nat (Slab V) := ⟨fun s k => k ∈ s.keys⟩

instance (k : Nat) (s : Slab V) : Decidable (k ∈ s) := inferInstanceAs (Decidable (k ∈ s.keys))

theorem mem_iff {k : Nat} {s : Slab V} : k ∈ s ↔ k ∈ s.keys := Iff.rfl

@[simp] theorem not_mem_empty (k : Nat) : ¬ k ∈ (empty : Slab V) := by simp [mem_iff, keys, empty]

@[simp] theorem mem_insert {s : Slab V} {k k' : Nat} {v : V} : k' ∈ s.insert k v ↔ k' ∈ s ∨ k' = k := by
  simp [mem_iff, keys, insert]

@[simp] theorem mem_remove {s : Slab V} {k k' : Nat} : k' ∈ s.remove k ↔ k' ∈ s ∧ k' ≠ k := by
  simp [mem_iff, keys, remove]

theorem lookup_cons_ne {l : List (Nat × V)} {k k' : Nat} {v : V} (h : k' ≠ k) :
    ((k, v) :: l).lookup k' = l.lookup k' := by
  rw [List.lookup_cons, beq_eq_false_iff_ne.mpr h]

theorem lookup_isSome {l : List (Nat × V)} {k : Nat} : (l.lookup k).isSome ↔ k ∈ l.map Prod.fst := by
  induction l with
  | nil => simp
  | cons p ps ih =>
    obtain ⟨a, b⟩ := p
    by_cases h : k = a
    · simp [h]
    · simp [lookup_cons_ne h, ih, h]

theorem mem_of_lookup {l : List (Nat × V)} {k : Nat} {v : V} (h : l.lookup k = some v) : (k, v) ∈ l := by
  induction l with
  | nil => simp at h
  | cons p ps ih =>
    obtain ⟨a, b⟩ := p
    by_cases hk : k = a
    · subst hk; simp_all
    · rw [lookup_cons_ne hk] at h
      exact List.mem_cons_of_mem _ (ih h)

theorem get_isSome {s : Slab V} {k : Nat} : (s.get k).isSome ↔ k ∈ s := lookup_isSome

theorem get_eq_none {s : Slab V} {k : Nat} : s.get k = none ↔ k ∉ s := by
  rw [← get_isSome, Option.not_isSome_iff_eq_none]

theorem mem_of_get {s : Slab V} {k : Nat} {v : V} (h : s.get k = some v) : k ∈ s :=
  get_isSome.mp (by simp [h])

/-- A free key gets the value it is inserted with; every other key keeps its value. -/
theorem get_insert {s : Slab V} {k : Nat} (v : V) (h : k ∉ s) (k' : Nat) :
    (s.insert k v).get k' = if k' = k then some v else s.get k' := by
  simp only [get, insert, List.lookup_append]
  split
  · subst k'; rw [show s.entries.lookup k = none from get_eq_none.mpr h]; simp
  · cases s.entries.lookup k' <;> simp [lookup_cons_ne ‹k' ≠ k›]

theorem lookup_filter_ne {l : List (Nat × V)} {k k' : Nat} (h : k' ≠ k) :
    (l.filter (·.1 ≠ k)).lookup k' = l.lookup k' := by
  induction l with
  | nil => rfl
  | cons p ps ih =>
    obtain ⟨a, b⟩ := p
    by_cases ha : a = k
    · subst ha
      rw [List.filter_cons_of_neg (by simp), ih, lookup_cons_ne h]
    · rw [List.filter_cons_of_pos (by simpa using ha)]
      by_cases hk : k' = a
      · subst hk; simp
      · rw [lookup_cons_ne hk, lookup_cons_ne hk, ih]

theorem lookup_filter_self {l : List (Nat × V)} {k : Nat} : (l.filter (·.1 ≠ k)).lookup k = none := by
  rw [List.lookup_eq_none_iff]
  intro p hp
  have := (List.mem_filter.mp hp).2
  simp only [ne_eq, decide_eq_true_eq] at this
  exact bne_iff_ne.mpr (Ne.symm this)

/-- A removed key is absent; every other key keeps its value. -/
theorem get_remove (s : Slab V) (k k' : Nat) :
    (s.remove k).get k' = if k' = k then none else s.get k' := by
  simp only [get, remove]
  split
  · subst k'; exact lookup_filter_self
  · exact lookup_filter_ne ‹k' ≠ k›

theorem get_remove_some {s : Slab V} {k k' : Nat} {v : V} (h : (s.remove k).get k' = some v) :
    k' ≠ k ∧ s.get k' = some v := by
  rw [get_remove] at h
  split_ifs at h with hk
  exact ⟨hk, h⟩

theorem mem_entries_of_get {s : Slab V} {k : Nat} {v : V} (h : s.get k = some v) : (k, v) ∈ s.entries :=
  mem_of_lookup h

end Slab

end Io2Proofs.Executor
