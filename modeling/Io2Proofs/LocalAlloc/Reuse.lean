import Io2Proofs.LocalAlloc.Partition

/-!
# A freed block is reused

`allocate` takes the first free range, in the first page, where the block fits once its start
is rounded up to the layout's alignment, and calls `std::alloc::alloc` for a new page only when
no range of any page has room. After a `deallocate` whose merge is safe (`Heap.MergeSafe`), the
freed bytes lie in one free range of their page: the range that ended at the block's start and
grew over it, or a range of their own. So the next allocation that fits in the freed block is
served from the pages the allocator already has.

* `FreeRange.Fits` — a block of the layout fits in the range, at the rounded-up offset that
  `allocate` computes;
* `allocate_of_fits` — when a range of some page fits, `allocate` adds no page;
* `deallocate_freed_range` — after a safe `deallocate`, a free range of the block's page holds
  the whole block;
* `freed_block_reused` — after a safe `deallocate`, an allocation no larger than the freed
  block and aligned at its address is served from the existing pages.
-/

namespace Io2Proofs.LocalAlloc

/-- `next_multiple_of` gives the least multiple: no multiple of `rhs` from `n` on is below it. -/
theorem nextMultipleOf_le {n x rhs : Nat} (hn : n ≤ x) (hx : x % rhs = 0) :
    nextMultipleOf n rhs ≤ x := by
  unfold nextMultipleOf
  split
  · exact hn
  · rename_i hr
    have hlt : n < x := Nat.lt_of_le_of_ne hn fun e => hr (e ▸ hx)
    have hq := Nat.mul_le_mul_left rhs (Nat.div_lt_div_of_lt_of_dvd (Nat.dvd_of_mod_eq_zero hx) hlt)
    have hn' := Nat.div_add_mod n rhs
    have hx' := Nat.div_add_mod x rhs
    rw [Nat.mul_succ] at hq
    omega

/-- A block of `layout` fits in the range at the offset `allocate` gives it: the range's start,
as an address of the page at `ptr`, rounded up to the alignment. -/
def FreeRange.Fits (ptr : Nat) (layout : Layout) (r : FreeRange) : Prop :=
  nextMultipleOf (ptr + r.start) layout.align - ptr + layout.size ≤ r.start + r.len

/-- A range that holds an aligned block of the size fits it. -/
theorem FreeRange.fits_of_holds {ptr start : Nat} {layout : Layout} {r : FreeRange}
    (hs : r.start ≤ start) (he : start + layout.size ≤ r.start + r.len)
    (ha : (ptr + start) % layout.align = 0) : r.Fits ptr layout := by
  have := nextMultipleOf_le (show ptr + r.start ≤ ptr + start by omega) ha
  unfold FreeRange.Fits
  omega

/-! ### `allocate` adds a page only when no range has room -/

section Allocate

variable (ALIGN sysPtr : Nat) {layout : Layout}

/-- The first fit is found in a list holding a range that fits. -/
theorem findFit_isSome {ptr : Nat} {r : FreeRange} (hr : r.Fits ptr layout) :
    ∀ {i : Nat} {l : List FreeRange}, r ∈ l → (findFit ptr layout i l).isSome
  | _, [], h => nomatch h
  | _, q :: _, h => by
    rw [findFit]
    split
    · rcases List.mem_cons.1 h with rfl | h
      · unfold FreeRange.Fits at hr; omega
      · exact findFit_isSome hr h
    · rfl

/-- **When a range of some page fits the block, `allocate` adds no page**: it cuts the block
from the first page with room, whatever `std::alloc::alloc` would return. -/
theorem allocate_of_fits {page : Page} {r : FreeRange} (hr : r ∈ page.freeList)
    (hfit : r.Fits page.ptr layout) :
    ∀ {pages : List Page}, page ∈ pages →
      ∃ pages' addr, allocate ALIGN sysPtr layout pages = some (pages', addr) ∧
        pages'.map Page.bounds = pages.map Page.bounds
  | [], h => nomatch h
  | q :: _, h => by
    rw [allocate]
    split
    · exact ⟨_, _, rfl, by rw [List.map_cons, List.map_cons, Page.carve_bounds]⟩
    · rename_i hnone
      rcases List.mem_cons.1 h with rfl | h
      · have hsome := findFit_isSome (i := 0) hfit hr
        rw [hnone] at hsome
        simp at hsome
      · obtain ⟨pages', addr, he, hb⟩ := allocate_of_fits hr hfit h
        exact ⟨q :: pages', addr, by rw [he]; rfl, by rw [List.map_cons, List.map_cons, hb]⟩

end Allocate

/-! ### A safe `deallocate` leaves the block in one free range -/

/-- **After a safe `deallocate`, one free range of the block's page holds the whole block**:
the range that ended at the block's start grew over it, or the block became a range of its
own. -/
theorem deallocate_freed_range {ptr : Nat} {layout : Layout} {h : Heap} {pages' : List Page}
    (hsafe : h.MergeSafe ptr layout) (hd : deallocate ptr layout h.pages = some pages') :
    ∃ page ∈ pages', page.ptr ≤ ptr ∧ ∃ r ∈ page.freeList,
      r.start ≤ ptr - page.ptr ∧ ptr - page.ptr + layout.size ≤ r.start + r.len := by
  obtain ⟨pre, page, post, hpages, hhold, rfl⟩ := deallocate_eq_some hd
  obtain ⟨hright, -⟩ := hsafe page (by rw [hpages]; simp) hhold
  refine ⟨_, List.mem_append_right _ (List.mem_cons_self _ _), hhold.1, ?_⟩
  dsimp only
  rw [mergeFree_of_no_right hright]
  split
  · rename_i hany
    obtain ⟨r, hr, hend⟩ := List.any_eq_true.1 hany
    rw [decide_eq_true_eq] at hend
    refine ⟨_, List.mem_map_of_mem _ hr, ?_⟩
    simp only [hend, if_true]
    omega
  · exact ⟨_, List.mem_append_right _ (List.mem_singleton_self _), le_rfl, le_rfl⟩

/-- **A freed block is reused.** After a `deallocate` whose merge is safe, every allocation no
larger than the freed block and aligned at the block's address is served from the pages the
allocator has: it does not call `std::alloc::alloc`, whatever that would return, and no page
is added or moved. -/
theorem freed_block_reused {ALIGN ptr sysPtr : Nat} {layout layout' : Layout} {h h' : Heap}
    (hsafe : h.MergeSafe ptr layout) (hsize : layout'.size ≤ layout.size)
    (halign : ptr % layout'.align = 0) (he : h.call ALIGN (.deallocate ptr layout) = some h') :
    ∃ h'', h'.call ALIGN (.allocate layout' sysPtr) = some h'' ∧
      h''.pages.map Page.bounds = h'.pages.map Page.bounds := by
  obtain ⟨pages', hd, rfl⟩ := Option.map_eq_some'.1 he
  obtain ⟨page, hpage, hle, r, hr, hstart, hend⟩ := deallocate_freed_range hsafe hd
  have hfit : r.Fits page.ptr layout' :=
    FreeRange.fits_of_holds hstart (by omega) (by rwa [Nat.add_sub_cancel' hle])
  obtain ⟨pages'', addr, ha, hb⟩ := allocate_of_fits ALIGN sysPtr hr hfit hpage
  exact ⟨⟨pages'', (addr, layout'.size) :: h.live.erase (ptr, layout.size)⟩,
    by simp only [Heap.call, ha, Option.map_some'], hb⟩

/- The merge must be safe: in a page of `64` bytes cut into two blocks of `32`, the empty range
left at the page's end starts where the second block ends, so freeing that block only moves the
empty range back, and the next block of `32` bytes takes a second page. -/
example : (Heap.call 64 ⟨[⟨64, ⟨64, 64, 6, rfl⟩, [⟨64, 0⟩]⟩], [(96, 32), (64, 32)]⟩
    (.deallocate 96 ⟨32, 1, 0, rfl⟩)).bind
      (fun h => (h.call 64 (.allocate ⟨32, 1, 0, rfl⟩ 128)).map (·.pages.length)) = some 2 := rfl

/-- With `ALIGN = 16`: the page at `16` holds blocks at `16` and `20`; freeing the one at `16`
makes it a range of its own, and the next block of four bytes is cut from the page's first
range, at `24`. -/
theorem freed_block_reused_after_two_blocks :
    Heap.MergeSafe ⟨[⟨16, ⟨16, 16, 4, rfl⟩, [⟨8, 8⟩]⟩], [(20, 4), (16, 4)]⟩ 16 ⟨4, 4, 2, rfl⟩ ∧
    Heap.call 16 ⟨[⟨16, ⟨16, 16, 4, rfl⟩, [⟨8, 8⟩]⟩], [(20, 4), (16, 4)]⟩
        (.deallocate 16 ⟨4, 4, 2, rfl⟩) =
      some ⟨[⟨16, ⟨16, 16, 4, rfl⟩, [⟨8, 8⟩, ⟨0, 4⟩]⟩], [(20, 4)]⟩ ∧
    ∃ h'', Heap.call 16 ⟨[⟨16, ⟨16, 16, 4, rfl⟩, [⟨8, 8⟩, ⟨0, 4⟩]⟩], [(20, 4)]⟩
        (.allocate ⟨4, 4, 2, rfl⟩ 64) = some h'' ∧ h''.pages.map Page.bounds = [(16, 16)] :=
  have hsafe : Heap.MergeSafe ⟨[⟨16, ⟨16, 16, 4, rfl⟩, [⟨8, 8⟩]⟩], [(20, 4), (16, 4)]⟩ 16
      ⟨4, 4, 2, rfl⟩ :=
    fun page hp _ => by rw [List.mem_singleton] at hp; subst hp; decide
  have he : Heap.call 16 ⟨[⟨16, ⟨16, 16, 4, rfl⟩, [⟨8, 8⟩]⟩], [(20, 4), (16, 4)]⟩
      (.deallocate 16 ⟨4, 4, 2, rfl⟩) =
      some ⟨[⟨16, ⟨16, 16, 4, rfl⟩, [⟨8, 8⟩, ⟨0, 4⟩]⟩], [(20, 4)]⟩ := rfl
  ⟨hsafe, he, freed_block_reused hsafe le_rfl rfl he⟩

end Io2Proofs.LocalAlloc
