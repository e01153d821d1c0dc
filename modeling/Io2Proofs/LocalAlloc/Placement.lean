import Io2Proofs.LocalAlloc.Basic

/-!
# Where `allocate` puts a block, and when the allocator panics

`allocate` takes a block from a free range of a page, at an offset rounded up to the layout's
alignment, or from a new page; it panics when `Layout::from_size_align` rejects the new page's
layout. `deallocate` looks for the page that holds the block and panics with
`"bad deallocate"` when there is none. Whatever the merge of `deallocate` gets wrong (see
`LocalAlloc.Defects`), no step moves a free range past the end of its page, and that is enough
for the following.

* `Heap.Placed` — every free range ends inside its page and every live block lies in a page;
  `Heap.Reachable.placed`: every heap a run of allowed calls reaches is placed;
* `allocate_block_aligned_in_page` — on every reachable heap, the address an allowed `allocate`
  returns is a multiple of the layout's alignment, and the block lies in one of the pages;
* `allowed_call_panics_iff_page_refused` — with `ALIGN` a power of two, an allowed call on a
  reachable heap panics exactly when it is an `allocate` that no page has room for and whose new
  page `from_size_align` refuses for its size; `deallocate` finds the page of every live block.
-/

namespace Io2Proofs.LocalAlloc

/-! ### Bounds of pages -/

/-- Every free range of the page ends inside the page. -/
def Page.InBounds (page : Page) : Prop := ∀ r ∈ page.freeList, r.start + r.len ≤ page.layout.size

/-- The page's address and size: what `Page.Holds` reads of it. -/
def Page.bounds (page : Page) : Nat × Nat := (page.ptr, page.layout.size)

theorem Page.Holds.of_bounds {page page' : Page} {b : Nat × Nat} (he : page'.bounds = page.bounds)
    (h : page.Holds b) : page'.Holds b := by
  simp only [Page.bounds, Prod.mk.injEq] at he
  unfold Page.Holds
  rw [he.1, he.2]
  exact h

/-- A block held by a page of `pages` is held by a page of every list of pages whose bounds
start with those of `pages`. -/
theorem held_of_prefix {pages pages' : List Page} {b : Nat × Nat}
    (hpre : pages.map Page.bounds <+: pages'.map Page.bounds) (h : ∃ page ∈ pages, page.Holds b) :
    ∃ page ∈ pages', page.Holds b := by
  obtain ⟨page, hp, hh⟩ := h
  obtain ⟨page', hp', he⟩ := List.mem_map.1 (hpre.subset (List.mem_map_of_mem Page.bounds hp))
  exact ⟨page', hp', hh.of_bounds he⟩

/-! ### A block from a free range -/

/-- **The first fit.** The index `findFit` returns is of a range of the list, the offset is the
range's start rounded up to the alignment, and the block ends inside the range. -/
theorem findFit_spec {ptr : Nat} {layout : Layout} {idx allocStart : Nat} :
    ∀ {i : Nat} {l : List FreeRange}, findFit ptr layout i l = some (idx, allocStart) →
      i ≤ idx ∧ ∃ r ∈ l, l.getD (idx - i) ⟨0, 0⟩ = r ∧
        allocStart = nextMultipleOf (ptr + r.start) layout.align - ptr ∧
        allocStart + layout.size ≤ r.start + r.len
  | _, [], h => nomatch h
  | i, range :: rest, h => by
    rw [findFit] at h
    split at h
    · obtain ⟨hi, r, hr, hget, hfit⟩ := findFit_spec h
      refine ⟨by omega, r, .tail _ hr, ?_, hfit⟩
      rw [show idx - i = idx - (i + 1) + 1 by omega, List.getD_cons_succ, hget]
    · cases h
      exact ⟨le_rfl, range, .head _, by simp, rfl, by omega⟩

@[simp] theorem Page.carve_ptr (page : Page) (size idx allocStart : Nat) :
    (page.carve size idx allocStart).ptr = page.ptr := by
  dsimp only [Page.carve]; split <;> rfl

@[simp] theorem Page.carve_layout (page : Page) (size idx allocStart : Nat) :
    (page.carve size idx allocStart).layout = page.layout := by
  dsimp only [Page.carve]; split <;> rfl

theorem Page.carve_bounds (page : Page) (size idx allocStart : Nat) :
    (page.carve size idx allocStart).bounds = page.bounds := by
  simp [Page.bounds]

/-- The split of a range around a block that lies in it keeps every range inside the page. -/
theorem Page.carve_inBounds {page : Page} {size idx allocStart : Nat} {r : FreeRange}
    (hp : page.InBounds) (hr : r ∈ page.freeList) (hget : page.freeList.getD idx ⟨0, 0⟩ = r)
    (hs : r.start ≤ allocStart) (he : allocStart + size ≤ r.start + r.len) :
    (page.carve size idx allocStart).InBounds := by
  have hend := hp r hr
  intro q hq
  rw [Page.carve_layout]
  simp only [Page.carve, hget] at hq
  split at hq
  · rcases List.mem_or_eq_of_mem_set hq with hq | rfl
    · exact hp q hq
    · dsimp only; omega
  · rcases List.mem_or_eq_of_mem_set hq with hq | rfl
    · rcases List.mem_append.1 hq with hq | hq
      · exact hp q hq
      · rw [List.mem_singleton] at hq; subst hq; dsimp only; omega
    · dsimp only; omega

/-- **A block taken from a page's free range**: its address is a multiple of the alignment, it
lies in the page, and the split keeps the page's ranges inside the page. -/
theorem findFit_block {page : Page} {layout : Layout} {idx allocStart : Nat} (hp : page.InBounds)
    (h : findFit page.ptr layout 0 page.freeList = some (idx, allocStart)) :
    (page.ptr + allocStart) % layout.align = 0 ∧ page.Holds (page.ptr + allocStart, layout.size) ∧
      (page.carve layout.size idx allocStart).InBounds := by
  obtain ⟨-, r, hr, hget, rfl, hfit⟩ := findFit_spec h
  have hle := le_nextMultipleOf (page.ptr + r.start) layout.align
  have haddr : page.ptr + (nextMultipleOf (page.ptr + r.start) layout.align - page.ptr) =
      nextMultipleOf (page.ptr + r.start) layout.align := by omega
  have hend := hp r hr
  refine ⟨by rw [haddr]; exact nextMultipleOf_mod _ layout.align_pos,
    ⟨Nat.le_add_right _ _, by dsimp only; omega⟩, Page.carve_inBounds hp hr hget (by omega) hfit⟩

/-! ### A block from a new page -/

theorem Layout.fromSizeAlign_eq_some {size align : Nat} {l : Layout}
    (h : Layout.fromSizeAlign size align = some l) : l.size = size ∧ l.align = align := by
  unfold Layout.fromSizeAlign at h
  split at h
  · split at h
    · cases h; exact ⟨rfl, rfl⟩
    · cases h
  · cases h

/-- From `n > 0` on, rounding up to a multiple of `rhs > 0` gives at least `rhs`. -/
theorem le_nextMultipleOf_of_pos {n rhs : Nat} (hn : 0 < n) (hr : 0 < rhs) :
    rhs ≤ nextMultipleOf n rhs :=
  Nat.le_of_dvd (Nat.lt_of_lt_of_le hn (le_nextMultipleOf n rhs))
    (Nat.dvd_of_mod_eq_zero (nextMultipleOf_mod n hr))

/-- **The new page** holds the block at its start, and its free range ends at the page's end.
(`ALIGN = 0` never gets here: the page's alignment is then `0`, which `from_size_align`
rejects.) -/
theorem newPage_spec {ALIGN sysPtr : Nat} {layout : Layout} {page : Page}
    (h : newPage ALIGN sysPtr layout = some page) :
    page.ptr = sysPtr ∧ page.InBounds ∧ page.Holds (sysPtr, layout.size) := by
  unfold newPage at h
  split at h
  · cases h
  · rename_i hs
    obtain ⟨pl, hpl, rfl⟩ := Option.map_eq_some'.1 h
    obtain ⟨hsize, halign⟩ := Layout.fromSizeAlign_eq_some hpl
    have hA : 0 < ALIGN := Nat.pos_of_ne_zero fun h0 => by
      have := pl.align_pos
      simp [halign, h0, nextMultipleOf] at this
    have := le_nextMultipleOf_of_pos hA (Nat.pos_of_ne_zero hs)
    refine ⟨rfl, fun r hr => ?_, ⟨le_rfl, ?_⟩⟩
    · rw [List.mem_singleton] at hr; subst hr; dsimp only; omega
    · dsimp only; omega

/-- An address aligned as the page layout asks is aligned as the block's layout asks. -/
theorem mod_align_of_mod_page_align {ALIGN sysPtr : Nat} {layout : Layout}
    (h : sysPtr % nextMultipleOf ALIGN layout.align = 0) : sysPtr % layout.align = 0 :=
  Nat.mod_eq_zero_of_dvd <|
    Nat.dvd_trans (Nat.dvd_of_mod_eq_zero (nextMultipleOf_mod ALIGN layout.align_pos))
      (Nat.dvd_of_mod_eq_zero h)

theorem nextMultipleOf_two_pow (k j : Nat) : nextMultipleOf (2 ^ k) (2 ^ j) = 2 ^ max k j := by
  unfold nextMultipleOf
  rcases Nat.lt_or_ge k j with hkj | hjk
  · have hlt : 2 ^ k < 2 ^ j := Nat.pow_lt_pow_right Nat.one_lt_two hkj
    rw [Nat.mod_eq_of_lt hlt, if_neg (Nat.two_pow_pos k).ne', max_eq_right hkj.le]
    omega
  · rw [Nat.mod_eq_zero_of_dvd (Nat.pow_dvd_pow 2 hjk), if_pos rfl, max_eq_left hjk]

/-- With `ALIGN` a power of two, `newPage` of a non-empty block fails only where
`Layout::from_size_align` refuses the page for its size: `ALIGN.next_multiple_of(size)` passes
`isize::MAX - (ALIGN.next_multiple_of(align) - 1)`. -/
theorem newPage_eq_none_two_pow (k sysPtr : Nat) {layout : Layout} (hs : 0 < layout.size) :
    newPage (2 ^ k) sysPtr layout = none ↔
      isizeMax - (nextMultipleOf (2 ^ k) layout.align - 1) < nextMultipleOf (2 ^ k) layout.size := by
  obtain ⟨j, hj⟩ := layout.align_pow
  rw [newPage, if_neg hs.ne', hj, nextMultipleOf_two_pow]
  dsimp only
  rw [Layout.fromSizeAlign_two_pow]
  split <;> rename_i hle <;> simpa using hle

/-! ### `allocate` -/

section Allocate

variable {ALIGN sysPtr : Nat} {layout : Layout}

/-- **What `allocate` does to the pages.** Given an address aligned as a new page asks, every
page keeps its ranges inside it, the pages there were keep their bounds and come first, and the
block is aligned and lies in a page. -/
theorem allocate_spec (hsys : sysPtr % nextMultipleOf ALIGN layout.align = 0) :
    ∀ {pages pages' : List Page} {addr : Nat}, (∀ page ∈ pages, page.InBounds) →
      allocate ALIGN sysPtr layout pages = some (pages', addr) →
      (∀ page ∈ pages', page.InBounds) ∧ pages.map Page.bounds <+: pages'.map Page.bounds ∧
        addr % layout.align = 0 ∧ ∃ page ∈ pages', page.Holds (addr, layout.size)
  | [], _, _, _, h => by
    obtain ⟨page, hn, he⟩ := Option.map_eq_some'.1 h
    cases he
    obtain ⟨-, hb, hh⟩ := newPage_spec hn
    exact ⟨by simpa using hb, List.nil_prefix, mod_align_of_mod_page_align hsys, page,
      List.mem_singleton_self _, hh⟩
  | page :: pages, _, _, hp, h => by
    rw [List.forall_mem_cons] at hp
    rw [allocate] at h
    split at h
    · cases h
      obtain ⟨ha, hh, hc⟩ := findFit_block hp.1 ‹_›
      exact ⟨List.forall_mem_cons.2 ⟨hc, hp.2⟩, by simp [Page.carve_bounds], ha, _, .head _,
        hh.of_bounds (Page.carve_bounds ..)⟩
    · obtain ⟨⟨pages', addr⟩, hr, he⟩ := Option.map_eq_some'.1 h
      cases he
      obtain ⟨hb, hpre, ha, p, hp', hh⟩ := allocate_spec hsys hp.2 hr
      exact ⟨List.forall_mem_cons.2 ⟨hp.1, hb⟩, (List.prefix_cons_inj _).2 hpre, ha, p, .tail _ hp',
        hh⟩

/-- **`allocate` panics exactly when no range of any page fits the block and the new page
fails.** -/
theorem allocate_eq_none_iff : ∀ {pages : List Page}, allocate ALIGN sysPtr layout pages = none ↔
    (∀ page ∈ pages, findFit page.ptr layout 0 page.freeList = none) ∧ newPage ALIGN sysPtr layout = none
  | [] => by simp [allocate]
  | page :: pages => by
    rw [allocate, List.forall_mem_cons]
    split
    · rename_i hf; simp [hf]
    · rename_i hf; rw [Option.map_eq_none', allocate_eq_none_iff, hf]; simp only [true_and, and_assoc]

end Allocate

/-! ### `deallocate` -/

/-- **What the merge makes of each range**: a range of the list as it was, one that ended at the
block and now ends at the block's end, or one that started at the block's end and now starts
`size` earlier. -/
theorem mergeFree_mem {start size : Nat} {q : FreeRange} :
    ∀ {l : List FreeRange}, q ∈ (mergeFree start size l).1 → ∃ r ∈ l, q = r ∨
      (start = r.start + r.len ∧ q = ⟨r.start, r.len + size⟩) ∨
      (start + size = r.start ∧ q = ⟨r.start - size, r.len⟩)
  | [], hq => by simp [mergeFree] at hq
  | range :: rest, hq => by
    rcases hm : mergeFree start size rest with ⟨rest', found⟩
    rw [mergeFree, hm] at hq
    suffices h : (q = range ∨
        (start = range.start + range.len ∧ q = ⟨range.start, range.len + size⟩) ∨
        (start + size = range.start ∧ q = ⟨range.start - size, range.len⟩)) ∨ q ∈ rest' by
      rcases h with h | h
      · exact ⟨range, .head _, h⟩
      · obtain ⟨r, hr, h⟩ := mergeFree_mem (l := rest) (by rw [hm]; exact h)
        exact ⟨r, .tail _ hr, h⟩
    split_ifs at hq with h₁ h₂ <;> rcases List.mem_cons.1 hq with rfl | hq <;> simp [*]

/-- The merge keeps every range inside the page when the block lies in it. -/
theorem mergeFree_inBounds {start size n : Nat} {l : List FreeRange} (hb : start + size ≤ n)
    (hl : ∀ r ∈ l, r.start + r.len ≤ n) :
    ∀ q ∈ (mergeFree start size l).1, q.start + q.len ≤ n := by
  intro q hq
  obtain ⟨r, hr, h⟩ := mergeFree_mem hq
  have := hl r hr
  rcases h with rfl | ⟨h, rfl⟩ | ⟨h, rfl⟩
  · exact this
  · dsimp only; omega
  · dsimp only; omega

section Deallocate

variable {ptr : Nat} {layout : Layout}

/-- **What `deallocate` does to the pages**: every page keeps its ranges inside it, and every
page keeps its bounds. -/
theorem deallocate_spec : ∀ {pages pages' : List Page}, (∀ page ∈ pages, page.InBounds) →
    deallocate ptr layout pages = some pages' →
    (∀ page ∈ pages', page.InBounds) ∧ pages'.map Page.bounds = pages.map Page.bounds
  | [], _, _, h => nomatch h
  | page :: pages, _, hp, h => by
    rw [List.forall_mem_cons] at hp
    rw [deallocate] at h
    split at h
    · rename_i hin
      cases h
      refine ⟨List.forall_mem_cons.2 ⟨fun q hq => ?_, hp.2⟩, rfl⟩
      have hmerged :=
        mergeFree_inBounds (show ptr - page.ptr + layout.size ≤ page.layout.size by omega) hp.1
      dsimp only at hq ⊢
      split at hq
      · exact hmerged q hq
      · rcases List.mem_append.1 hq with hq | hq
        · exact hmerged q hq
        · rw [List.mem_singleton] at hq; subst hq; dsimp only; omega
    · obtain ⟨pages', hr, rfl⟩ := Option.map_eq_some'.1 h
      obtain ⟨hb, he⟩ := deallocate_spec hp.2 hr
      exact ⟨List.forall_mem_cons.2 ⟨hp.1, hb⟩, by simp [he]⟩

/-- `deallocate` finds a page for every block some page holds. -/
theorem deallocate_isSome : ∀ {pages : List Page}, (∃ page ∈ pages, page.Holds (ptr, layout.size)) →
    (deallocate ptr layout pages).isSome
  | [], ⟨_, h, _⟩ => absurd h (List.not_mem_nil _)
  | page :: pages, ⟨p, hp, hh⟩ => by
    rw [deallocate]
    split
    · rfl
    · rename_i hn
      rcases List.mem_cons.1 hp with rfl | hp
      · exact absurd hh hn
      · rw [Option.isSome_map']; exact deallocate_isSome ⟨p, hp, hh⟩

end Deallocate

/-! ### Every reachable heap -/

/-- **What every reachable heap keeps**: the free ranges of every page end inside the page, and
every live block lies in a page. -/
structure Heap.Placed (h : Heap) : Prop where
  inBounds : ∀ page ∈ h.pages, page.InBounds
  live_held : ∀ b ∈ h.live, ∃ page ∈ h.pages, page.Holds b

theorem Heap.Placed.empty : Heap.Placed ⟨[], []⟩ := ⟨nofun, nofun⟩

/-- Every allowed call keeps the heap placed. -/
theorem Heap.Placed.call {ALIGN : Nat} {h h' : Heap} {c : Call} (hp : h.Placed)
    (hc : h.Allowed ALIGN c) (he : h.call ALIGN c = some h') : h'.Placed := by
  cases c with
  | allocate layout sysPtr =>
    obtain ⟨⟨pages', addr⟩, ha, rfl⟩ := Option.map_eq_some'.1 he
    obtain ⟨hb, hpre, -, hh⟩ := allocate_spec hc.2.1 hp.inBounds ha
    exact ⟨hb, List.forall_mem_cons.2 ⟨hh, fun b hb' => held_of_prefix hpre (hp.live_held b hb')⟩⟩
  | deallocate ptr layout =>
    obtain ⟨pages', hd, rfl⟩ := Option.map_eq_some'.1 he
    obtain ⟨hb, hbounds⟩ := deallocate_spec hp.inBounds hd
    exact ⟨hb, fun b hb' => held_of_prefix (hbounds ▸ List.prefix_refl _)
      (hp.live_held b (List.mem_of_mem_erase hb'))⟩

theorem Heap.Reachable.placed {ALIGN : Nat} {h : Heap} (hh : Heap.Reachable ALIGN h) : h.Placed := by
  induction hh with
  | empty => exact .empty
  | call c _ hc he ih => exact ih.call hc he

/-- The page at address `16` of `16` bytes that a one-byte allocation makes with `ALIGN = 16`:
the byte is at offset `0`, the rest is free. -/
def pageAfterOneByte : Page := ⟨16, ⟨16, 16, 4, rfl⟩, [⟨1, 15⟩]⟩

theorem reachable_after_one_byte : Heap.Reachable 16 ⟨[pageAfterOneByte], [(16, 1)]⟩ :=
  .call (.allocate ⟨1, 1, 0, rfl⟩ 16) .empty ⟨Nat.one_pos, rfl, nofun⟩ rfl

/-! ### Where `allocate` puts a block -/

/-- **Where `allocate` puts a block.** On every reachable heap, the address an allowed
`allocate` returns is a multiple of the layout's alignment, and the block's bytes lie in one of
the pages after the call. -/
theorem allocate_block_aligned_in_page {ALIGN sysPtr addr : Nat} {h : Heap} {layout : Layout}
    {pages' : List Page} (hh : Heap.Reachable ALIGN h) (hc : h.Allowed ALIGN (.allocate layout sysPtr))
    (he : allocate ALIGN sysPtr layout h.pages = some (pages', addr)) :
    addr % layout.align = 0 ∧ ∃ page ∈ pages', page.Holds (addr, layout.size) :=
  (allocate_spec hc.2.1 hh.placed.inBounds he).2.2

/-- After `pageAfterOneByte`, a block of `4` bytes aligned to `4` starts at offset `4` of the
free range `[1, 16)`, at the address `20`: the range keeps `[1, 4)` and `[8, 16)` is pushed. -/
theorem allocate_block_aligned_in_page_after_one_byte :
    20 % 4 = 0 ∧
      ∃ page ∈ [(⟨16, ⟨16, 16, 4, rfl⟩, [⟨1, 3⟩, ⟨8, 8⟩]⟩ : Page)], page.Holds (20, 4) :=
  allocate_block_aligned_in_page reachable_after_one_byte
    (show Heap.Allowed 16 _ (.allocate ⟨4, 4, 2, rfl⟩ 32) from ⟨by decide, by decide, by decide⟩)
    rfl

/-! ### When the allocator panics -/

/-- **An allowed call panics only for a new page too large.** With `ALIGN` a power of two, on
every reachable heap an allowed call panics exactly when it is an `allocate` for which no free
range of any page fits the block, and `Layout::from_size_align(..).unwrap()` refuses the new page
for its size: `ALIGN.next_multiple_of(size)` passes `isize::MAX - (ALIGN.next_multiple_of(align) -
1)`. `deallocate` of a live block always finds the page that holds it, so `"bad deallocate"` is
never reached. -/
theorem allowed_call_panics_iff_page_refused (k : Nat) {h : Heap} {c : Call}
    (hh : Heap.Reachable (2 ^ k) h) (hc : h.Allowed (2 ^ k) c) :
    h.call (2 ^ k) c = none ↔ ∃ layout sysPtr, c = .allocate layout sysPtr ∧
      (∀ page ∈ h.pages, findFit page.ptr layout 0 page.freeList = none) ∧
      isizeMax - (nextMultipleOf (2 ^ k) layout.align - 1) < nextMultipleOf (2 ^ k) layout.size := by
  cases c with
  | allocate layout sysPtr =>
    rw [Heap.call, Option.map_eq_none', allocate_eq_none_iff, newPage_eq_none_two_pow k sysPtr hc.1]
    exact ⟨fun ⟨hf, hn⟩ => ⟨layout, sysPtr, rfl, hf, hn⟩, fun ⟨_, _, he, hf, hn⟩ => by cases he; exact ⟨hf, hn⟩⟩
  | deallocate ptr layout =>
    rw [Heap.call, Option.map_eq_none']
    exact ⟨fun hn => absurd hn (Option.ne_none_iff_isSome.2 (deallocate_isSome (hh.placed.live_held _ hc))),
      fun ⟨_, _, he, _⟩ => nomatch he⟩

/-- With `ALIGN = 64`, allocating on an empty heap the valid layout of `2 ^ 63 - 1` bytes
aligned to one byte panics: the page would be `2 ^ 63 - 1` bytes aligned to `64`, past
`isize::MAX - 63`. -/
theorem allowed_call_panics_iff_page_refused_huge_block :
    Heap.Allowed (2 ^ 6) ⟨[], []⟩ (.allocate ⟨2 ^ 63 - 1, 1, 0, rfl⟩ 0) ∧
    Heap.call (2 ^ 6) ⟨[], []⟩ (.allocate ⟨2 ^ 63 - 1, 1, 0, rfl⟩ 0) = none ∧
    ∃ layout sysPtr, Call.allocate ⟨2 ^ 63 - 1, 1, 0, rfl⟩ 0 = .allocate layout sysPtr ∧
      (∀ page ∈ ([] : List Page), findFit page.ptr layout 0 page.freeList = none) ∧
      isizeMax - (nextMultipleOf (2 ^ 6) layout.align - 1) < nextMultipleOf (2 ^ 6) layout.size :=
  have hc : Heap.Allowed (2 ^ 6) ⟨[], []⟩ (.allocate ⟨2 ^ 63 - 1, 1, 0, rfl⟩ 0) :=
    ⟨by decide, by decide, nofun⟩
  have hn : Heap.call (2 ^ 6) ⟨[], []⟩ (.allocate ⟨2 ^ 63 - 1, 1, 0, rfl⟩ 0) = none := rfl
  ⟨hc, hn, (allowed_call_panics_iff_page_refused 6 .empty hc).1 hn⟩

end Io2Proofs.LocalAlloc
