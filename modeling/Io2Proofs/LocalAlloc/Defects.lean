import Io2Proofs.LocalAlloc.Basic

/-!
# The merge in `deallocate` loses bytes and overlaps free ranges

The neighbour merge of `deallocate` has two slips. A range that starts where the freed block
ends has its start moved back by the block's size but keeps its length, so it now ends
`size` bytes early: those bytes are neither free nor in a live block. And when both a range
ending at the block and a range starting after it exist, both are changed, so the two free
ranges overlap, and two later allocations can be handed the same bytes.

* `Heap.LiveDisjoint`, `Heap.NoByteLost` — what the allocator should keep over every run;
* `deallocate_loses_bytes` — for every power of two `ALIGN` up to `2 ^ 62`, allocating one byte
  and freeing it leaves the last byte of the page neither free nor live;
* `deallocate_overlaps_blocks` — for every power of two `ALIGN` from `4` to `2 ^ 62`, three
  one-byte blocks freed first, last, middle, then two allocations, give two live blocks sharing
  a byte.

Both runs are of allowed calls only. `ALIGN` is not defined in the source; every power of two
from `4` to `2 ^ 62` is covered (from `2 ^ 63` on, `from_size_align` refuses every page, and
no call that needs a page returns).
-/

namespace Io2Proofs.LocalAlloc

/-- No two live blocks share a byte. -/
def Heap.LiveDisjoint (h : Heap) : Prop :=
  h.live.Pairwise fun a b => a.1 + a.2 ≤ b.1 ∨ b.1 + b.2 ≤ a.1

/-- Every byte of every page is in a free range of the page or in a live block. -/
def Heap.NoByteLost (h : Heap) : Prop :=
  ∀ page ∈ h.pages, ∀ o < page.layout.size,
    page.IsFree o ∨ ∃ b ∈ h.live, b.1 ≤ page.ptr + o ∧ page.ptr + o < b.1 + b.2

/-! ### Calls on one page with byte-aligned layouts -/

/-- A layout of `s` bytes aligned to one byte. -/
def Layout.bytes (s : Nat) : Layout := ⟨s, 1, 0, rfl⟩

@[simp] theorem Layout.bytes_size (s : Nat) : (Layout.bytes s).size = s := rfl

theorem findFit_bytes (ptr idx s : Nat) (r : FreeRange) (rest : List FreeRange) :
    findFit ptr (.bytes s) idx (r :: rest) =
      if s ≤ r.len then some (idx, r.start) else findFit ptr (.bytes s) (idx + 1) rest := by
  simp only [findFit, Layout.bytes, nextMultipleOf_one, Nat.add_sub_cancel_left]
  split <;> split <;> first | rfl | omega

section OnePage

variable (ALIGN : Nat) (page : Page) (live : List (Nat × Nat))

/-- A page of `2 ^ k` bytes aligned to `2 ^ k` passes the size check of `from_size_align` as long
as `2 ^ k ≤ 2 ^ 62`. -/
theorem two_pow_le_isizeMax {k : Nat} (hk : k ≤ 62) : 2 ^ k ≤ isizeMax - (2 ^ k - 1) := by
  have h2 : 2 ^ k * 2 ≤ 2 ^ 63 := by
    rw [← Nat.pow_succ]; exact Nat.pow_le_pow_right Nat.two_pos (by omega)
  have h1 := @Nat.one_le_two_pow k
  unfold isizeMax
  omega

theorem call_allocate_new (k s p : Nat) (hk : k ≤ 62) (hs : 0 < s) (hdvd : s ∣ 2 ^ k) :
    Heap.call (2 ^ k) ⟨[], live⟩ (.allocate (.bytes s) p) =
      some ⟨[⟨p, ⟨2 ^ k, 2 ^ k, k, rfl⟩, [⟨s, 2 ^ k - s⟩]⟩], (p, s) :: live⟩ := by
  have : nextMultipleOf (2 ^ k) s = 2 ^ k := by simp [nextMultipleOf, Nat.mod_eq_zero_of_dvd hdvd]
  simp [Heap.call, allocate, newPage, Layout.bytes, this, Layout.fromSizeAlign_two_pow, hs.ne',
    two_pow_le_isizeMax hk]

theorem call_allocate_first {s q : Nat} {r : FreeRange} {rest : List FreeRange}
    (hfl : page.freeList = r :: rest) (hs : s ≤ r.len) :
    Heap.call ALIGN ⟨[page], live⟩ (.allocate (.bytes s) q) =
      some ⟨[{ page with freeList := ⟨r.start + s, r.len - s⟩ :: rest }],
        (page.ptr + r.start, s) :: live⟩ := by
  simp [Heap.call, allocate, hfl, findFit_bytes, hs, Page.carve]

theorem call_allocate_second {s q : Nat} {r₁ r₂ : FreeRange} {rest : List FreeRange}
    (hfl : page.freeList = r₁ :: r₂ :: rest) (h₁ : r₁.len < s) (hs : s ≤ r₂.len) :
    Heap.call ALIGN ⟨[page], live⟩ (.allocate (.bytes s) q) =
      some ⟨[{ page with freeList := r₁ :: ⟨r₂.start + s, r₂.len - s⟩ :: rest }],
        (page.ptr + r₂.start, s) :: live⟩ := by
  simp [Heap.call, allocate, hfl, findFit_bytes, hs, Page.carve, show ¬ s ≤ r₁.len by omega]

theorem call_deallocate (ptr s : Nat) (hin : page.ptr ≤ ptr ∧ ptr + s ≤ page.ptr + page.layout.size) :
    Heap.call ALIGN ⟨[page], live⟩ (.deallocate ptr (.bytes s)) =
      some ⟨[{ page with freeList :=
        let m := mergeFree (ptr - page.ptr) s page.freeList
        if m.2 then m.1 else m.1 ++ [⟨ptr - page.ptr, s⟩] }], live.erase (ptr, s)⟩ := by
  simp [Heap.call, deallocate, hin]

end OnePage

section Merge

variable {start size : Nat} (r : FreeRange) (rest : List FreeRange)

theorem mergeFree_left (h : start = r.start + r.len) :
    mergeFree start size (r :: rest) = (⟨r.start, r.len + size⟩ :: (mergeFree start size rest).1, true) := by
  simp [mergeFree, h]

theorem mergeFree_right (h₁ : start ≠ r.start + r.len) (h₂ : start + size = r.start) :
    mergeFree start size (r :: rest) = (⟨r.start - size, r.len⟩ :: (mergeFree start size rest).1, true) := by
  simp [mergeFree, h₁, h₂]

theorem mergeFree_skip (h₁ : start ≠ r.start + r.len) (h₂ : start + size ≠ r.start) :
    mergeFree start size (r :: rest) = (r :: (mergeFree start size rest).1, (mergeFree start size rest).2) := by
  simp [mergeFree, h₁, h₂]

end Merge

/-! ### The two runs -/

/-- The page of the runs: at address `2 ^ k`, of `2 ^ k` bytes, with the free list `fl`. -/
def onePage (k : Nat) (fl : List FreeRange) : Page := ⟨2 ^ k, ⟨2 ^ k, 2 ^ k, k, rfl⟩, fl⟩

theorem allowed_allocate_bytes (k s : Nat) (hs : 0 < s) (fl : List FreeRange) (live : List (Nat × Nat)) :
    Heap.Allowed (2 ^ k) ⟨[onePage k fl], live⟩ (.allocate (.bytes s) (2 * 2 ^ k)) := by
  refine ⟨hs, by simp [Layout.bytes, Nat.mul_mod_left], ?_⟩
  simp only [List.mem_singleton, forall_eq, onePage]
  omega

/-- **A freed byte is lost.** With `ALIGN = 2 ^ k` (up to `2 ^ 62`: from `2 ^ 63` on,
`from_size_align` refuses every page), allocating one byte makes a page of `ALIGN` bytes;
freeing the byte moves the start of the page's free range back to `0` without lengthening it,
so the page's last byte is neither free nor in a live block. -/
theorem deallocate_loses_bytes (k : Nat) (hk : k ≤ 62) :
    ∃ h, Heap.Reachable (2 ^ k) h ∧ ¬ h.NoByteLost := by
  have hA : 1 ≤ 2 ^ k := Nat.one_le_two_pow
  have h₁ : Heap.Reachable (2 ^ k) ⟨[onePage k [⟨1, 2 ^ k - 1⟩]], [(2 ^ k, 1)]⟩ :=
    .call (.allocate (.bytes 1) (2 ^ k)) .empty ⟨Nat.one_pos, by simp [Layout.bytes], by simp⟩
      (call_allocate_new [] k 1 _ hk Nat.one_pos (Nat.one_dvd _))
  have h₂ : Heap.Reachable (2 ^ k) ⟨[onePage k [⟨0, 2 ^ k - 1⟩]], []⟩ := by
    refine .call (.deallocate (2 ^ k) (.bytes 1)) h₁ (by simp [Heap.Allowed]) ?_
    rw [call_deallocate _ (onePage k _) _ (2 ^ k) 1 ⟨le_rfl, by simp only [onePage]; omega⟩]
    simp [onePage, mergeFree, show ¬ 0 = 1 + (2 ^ k - 1) by omega]
  refine ⟨_, h₂, fun h => ?_⟩
  obtain ⟨r, hr, hc⟩ | ⟨b, hb, -⟩ := h _ (List.mem_singleton_self _) (2 ^ k - 1) (by simp only [onePage]; omega)
  · simp only [onePage, List.mem_singleton] at hr
    subst hr
    simp [FreeRange.Covers] at hc
  · simp at hb

/-- With `ALIGN = 64`. -/
theorem deallocate_loses_bytes_align_64 : 6 ≤ 62 ∧ ∃ h, Heap.Reachable (2 ^ 6) h ∧ ¬ h.NoByteLost :=
  ⟨by decide, deallocate_loses_bytes 6 (by decide)⟩

/-- **Two live blocks share a byte.** With `ALIGN = 2 ^ (k + 2)` (up to `2 ^ 62`), three one-byte
blocks at
offsets `0`, `1`, `2` of a fresh page, freed in the order `0`, `2`, `1`: the last free grows
the range `[0, 1)` to `[0, 2)` and also moves the range after the block back to start at `1`,
so the two ranges share offset `1`. Allocating the whole first range and then two bytes hands
out `[1, ALIGN - 2)` and `[0, 2)`. -/
theorem deallocate_overlaps_blocks (k : Nat) (hk : k ≤ 60) :
    ∃ h, Heap.Reachable (2 ^ (k + 2)) h ∧ ¬ h.LiveDisjoint := by
  have hA : 4 ≤ 2 ^ (k + 2) := by
    rw [Nat.pow_succ, Nat.pow_succ]; have := @Nat.one_le_two_pow k; omega
  have r₁ : Heap.Reachable (2 ^ (k + 2)) ⟨[onePage (k + 2) [⟨1, 2 ^ (k + 2) - 1⟩]], [(2 ^ (k + 2), 1)]⟩ :=
    .call (.allocate (.bytes 1) (2 ^ (k + 2))) .empty ⟨Nat.one_pos, by simp [Layout.bytes], by simp⟩
      (call_allocate_new [] (k + 2) 1 _ (by omega) Nat.one_pos (Nat.one_dvd _))
  have r₂ : Heap.Reachable (2 ^ (k + 2)) ⟨[onePage (k + 2) [⟨2, 2 ^ (k + 2) - 2⟩]],
      [(2 ^ (k + 2) + 1, 1), (2 ^ (k + 2), 1)]⟩ := by
    refine .call _ r₁ (allowed_allocate_bytes _ 1 Nat.one_pos _ _) ?_
    rw [call_allocate_first _ _ _ rfl (by dsimp only; omega)]
    simp only [onePage, Nat.sub_sub]
  have r₃ : Heap.Reachable (2 ^ (k + 2)) ⟨[onePage (k + 2) [⟨3, 2 ^ (k + 2) - 3⟩]],
      [(2 ^ (k + 2) + 2, 1), (2 ^ (k + 2) + 1, 1), (2 ^ (k + 2), 1)]⟩ := by
    refine .call _ r₂ (allowed_allocate_bytes _ 1 Nat.one_pos _ _) ?_
    rw [call_allocate_first _ _ _ rfl (by dsimp only; omega)]
    simp only [onePage, Nat.sub_sub]
  have r₄ : Heap.Reachable (2 ^ (k + 2)) ⟨[onePage (k + 2) [⟨3, 2 ^ (k + 2) - 3⟩, ⟨0, 1⟩]],
      [(2 ^ (k + 2) + 2, 1), (2 ^ (k + 2) + 1, 1)]⟩ := by
    refine .call (.deallocate (2 ^ (k + 2)) (.bytes 1)) r₃ (by simp [Heap.Allowed]) ?_
    rw [call_deallocate _ (onePage (k + 2) _) _ (2 ^ (k + 2)) 1 ⟨le_rfl, by simp only [onePage]; omega⟩]
    simp [onePage, mergeFree, show ¬ 0 = 3 + (2 ^ (k + 2) - 3) by omega]
  have r₅ : Heap.Reachable (2 ^ (k + 2)) ⟨[onePage (k + 2) [⟨2, 2 ^ (k + 2) - 3⟩, ⟨0, 1⟩]],
      [(2 ^ (k + 2) + 1, 1)]⟩ := by
    refine .call (.deallocate (2 ^ (k + 2) + 2) (.bytes 1)) r₄ (by simp [Heap.Allowed]) ?_
    rw [call_deallocate _ (onePage (k + 2) _) _ _ 1 ⟨by simp [onePage], by simp only [onePage]; omega⟩]
    simp [onePage, mergeFree, show ¬ 2 = 3 + (2 ^ (k + 2) - 3) by omega]
  have r₆ : Heap.Reachable (2 ^ (k + 2)) ⟨[onePage (k + 2) [⟨1, 2 ^ (k + 2) - 3⟩, ⟨0, 2⟩]], []⟩ := by
    refine .call (.deallocate (2 ^ (k + 2) + 1) (.bytes 1)) r₅ (by simp [Heap.Allowed]) ?_
    rw [call_deallocate _ (onePage (k + 2) _) _ _ 1 ⟨by simp [onePage], by simp only [onePage]; omega⟩]
    simp [onePage, mergeFree, show ¬ 1 = 2 + (2 ^ (k + 2) - 3) by omega]
  have r₇ : Heap.Reachable (2 ^ (k + 2)) ⟨[onePage (k + 2) [⟨2 ^ (k + 2) - 2, 0⟩, ⟨0, 2⟩]],
      [(2 ^ (k + 2) + 1, 2 ^ (k + 2) - 3)]⟩ := by
    refine .call _ r₆ (allowed_allocate_bytes _ (2 ^ (k + 2) - 3) (by omega) _ _) ?_
    rw [call_allocate_first _ _ _ rfl (by simp)]
    simp [onePage]; omega
  have r₈ : Heap.Reachable (2 ^ (k + 2)) ⟨[onePage (k + 2) [⟨2 ^ (k + 2) - 2, 0⟩, ⟨2, 0⟩]],
      [(2 ^ (k + 2), 2), (2 ^ (k + 2) + 1, 2 ^ (k + 2) - 3)]⟩ := by
    refine .call _ r₇ (allowed_allocate_bytes _ 2 (by omega) _ _) ?_
    rw [call_allocate_second _ _ _ rfl (by simp) (by simp)]
    simp [onePage]
  refine ⟨_, r₈, fun h => ?_⟩
  simp only [Heap.LiveDisjoint, List.pairwise_cons, List.mem_singleton, forall_eq] at h
  omega

/-- With `ALIGN = 64`. -/
theorem deallocate_overlaps_blocks_align_64 :
    4 ≤ 60 ∧ ∃ h, Heap.Reachable (2 ^ (4 + 2)) h ∧ ¬ h.LiveDisjoint :=
  ⟨by decide, deallocate_overlaps_blocks 4 (by decide)⟩

end Io2Proofs.LocalAlloc
