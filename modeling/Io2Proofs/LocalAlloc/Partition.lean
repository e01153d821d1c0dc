import Io2Proofs.LocalAlloc.Placement
import Io2Proofs.LocalAlloc.Defects

/-!
# Runs with safe merges keep every page partitioned

Every byte of a page should be in exactly one place: in a free range of the page, or in a
block handed out and not freed. `LocalAlloc.Defects` shows that `deallocate` breaks this: a
range that begins right after the freed block is moved back without growing, and a block that
two ranges end at is merged into both. Here the rest of the allocator is shown not to: from a
heap whose pages are so partitioned, every allowed `allocate`, and every allowed `deallocate`
that meets neither case, gives a heap whose pages are so partitioned. The first fit cuts its
range into the part before the block, the block and the part after it; a new page holds the
block at its start and one free range after it, and none of its bytes is another page's; a
freed block grows the one range that ends where it starts, or becomes a range of its own.

* `Page.Tiles` — every byte of the page is in exactly one free range of the page or one live
  block;
* `Heap.Tiled` — the pages are apart, the live blocks are non-empty and lie in pages, and every
  page is tiled;
* `Heap.Tiled.allocate`, `Heap.Tiled.deallocate` — an allowed `allocate`, and an allowed
  `deallocate` whose merge is safe (`Heap.MergeSafe`), keep a heap tiled;
* `safe_runs_keep_blocks_apart` — every run of such calls from no pages keeps the two
  properties `LocalAlloc.Defects` shows `deallocate` breaks: no two live blocks share a byte,
  and no byte of a page is lost.
-/

namespace Io2Proofs.LocalAlloc

/-! ### Blocks and pages as address ranges -/

/-- The block `(addr, size)` holds the address `a`. -/
def blockCovers (b : Nat × Nat) (a : Nat) : Bool := b.1 ≤ a && a < b.1 + b.2

/-- Two address ranges `(start, length)` share no byte. -/
def Apart (x y : Nat × Nat) : Prop := x.1 + x.2 ≤ y.1 ∨ y.1 + y.2 ≤ x.1

theorem Apart.symm {x y : Nat × Nat} (h : Apart x y) : Apart y x := Or.symm h

/-- A block a page holds is apart from whatever the page is apart from. -/
theorem Apart.of_holds {page : Page} {b x : Nat × Nat} (hb : page.Holds b)
    (h : Apart page.bounds x) : Apart b x := by
  unfold Apart Page.bounds at h
  unfold Apart
  unfold Page.Holds at hb
  omega

/-- A block apart from a page covers none of its bytes. -/
theorem blockCovers_of_apart {page : Page} {b : Nat × Nat} (h : Apart b page.bounds) {o : Nat}
    (ho : o < page.layout.size) : blockCovers b (page.ptr + o) = false := by
  unfold Apart Page.bounds at h
  simp only [blockCovers, Bool.and_eq_false_iff, decide_eq_false_iff_not]
  omega

/-- **The page is tiled by its free ranges and the live blocks**: every byte of the page is in
exactly one free range of the page or one live block. -/
def Page.Tiles (page : Page) (live : List (Nat × Nat)) : Prop :=
  ∀ o < page.layout.size,
    page.freeList.countP (·.Covers o) + live.countP (blockCovers · (page.ptr + o)) = 1

/-- A block apart from the page leaves its tiling as it is. -/
theorem Page.Tiles.cons_apart {page : Page} {live : List (Nat × Nat)} {b : Nat × Nat}
    (h : page.Tiles live) (hb : Apart b page.bounds) : page.Tiles (b :: live) := by
  intro o ho
  rw [List.countP_cons, blockCovers_of_apart hb ho]
  exact h o ho

/-! ### The first fit -/

theorem findFit_lt_length {ptr : Nat} {layout : Layout} {idx allocStart : Nat} :
    ∀ {i : Nat} {l : List FreeRange}, findFit ptr layout i l = some (idx, allocStart) →
      idx - i < l.length
  | _, [], h => nomatch h
  | i, range :: rest, h => by
    rw [findFit] at h
    split at h
    · have := findFit_lt_length h
      have := (findFit_spec h).1
      simp only [List.length_cons]
      omega
    · cases h
      simp

/-- The free list after the split of the range `r` at `idx`. -/
theorem Page.carve_freeList {page : Page} {size idx allocStart : Nat} {r : FreeRange}
    (hget : page.freeList.getD idx ⟨0, 0⟩ = r) :
    (page.carve size idx allocStart).freeList =
      if allocStart = r.start then page.freeList.set idx ⟨r.start + size, r.len - size⟩
      else
        (page.freeList ++ [FreeRange.mk (allocStart + size) (r.len - (allocStart - r.start) - size)]).set
          idx ⟨r.start, allocStart - r.start⟩ := by
  simp only [Page.carve, hget]
  split <;> rfl

/-- **The split keeps the page tiled**: the range the block is cut from is replaced by the part
before the block and the part after it, and the block joins the live blocks. -/
theorem Page.Tiles.carve {page : Page} {live : List (Nat × Nat)} {layout : Layout}
    {idx allocStart : Nat} (h : page.Tiles live)
    (hf : findFit page.ptr layout 0 page.freeList = some (idx, allocStart)) :
    (page.carve layout.size idx allocStart).Tiles ((page.ptr + allocStart, layout.size) :: live) := by
  obtain ⟨-, r, hr, hget, hstart, hfit⟩ := findFit_spec hf
  have hidx : idx < page.freeList.length := by simpa using findFit_lt_length hf
  rw [Nat.sub_zero] at hget
  have hr' : page.freeList[idx] = r := by
    rw [List.getD_eq_getElem?_getD, List.getElem?_eq_getElem hidx] at hget
    exact hget
  have hle : page.ptr + r.start ≤ nextMultipleOf (page.ptr + r.start) layout.align :=
    le_nextMultipleOf _ _
  have hs : r.start ≤ allocStart := by omega
  intro o ho
  rw [Page.carve_layout] at ho
  have hcount := h o ho
  have hpos : (if r.Covers o = true then 1 else 0) ≤ page.freeList.countP (·.Covers o) := by
    split
    · exact List.countP_pos_iff.2 ⟨r, hr, ‹_›⟩
    · exact Nat.zero_le _
  rw [Page.carve_ptr, Page.carve_freeList hget, List.countP_cons]
  split
  · rw [List.countP_set _ _ _ _ hidx, hr']
    simp only [FreeRange.Covers, blockCovers, Bool.and_eq_true, decide_eq_true_eq] at hpos hcount ⊢
    split_ifs at hpos hcount ⊢ <;> omega
  · rw [List.countP_set _ _ _ _ (by simp; omega), List.getElem_append_left hidx, hr',
      List.countP_append, List.countP_singleton]
    simp only [FreeRange.Covers, blockCovers, Bool.and_eq_true, decide_eq_true_eq] at hpos hcount ⊢
    split_ifs at hpos hcount ⊢ <;> omega

/-! ### A new page -/

theorem newPage_layout_freeList {ALIGN sysPtr : Nat} {layout : Layout} {page : Page}
    (h : newPage ALIGN sysPtr layout = some page) :
    page.layout.size = nextMultipleOf ALIGN layout.size ∧
      page.freeList = [⟨layout.size, nextMultipleOf ALIGN layout.size - layout.size⟩] := by
  unfold newPage at h
  split at h
  · cases h
  · obtain ⟨pl, hpl, rfl⟩ := Option.map_eq_some'.1 h
    exact ⟨(Layout.fromSizeAlign_eq_some hpl).1, rfl⟩

/-- **A new page is tiled** by the block at its start and the free range after it, when no live
block covers any of its bytes. -/
theorem newPage_tiles {ALIGN sysPtr : Nat} {layout : Layout} {page : Page}
    (h : newPage ALIGN sysPtr layout = some page) {live : List (Nat × Nat)}
    (hlive : ∀ b ∈ live, Apart b page.bounds) : page.Tiles ((sysPtr, layout.size) :: live) := by
  obtain ⟨hptr, -, hhold⟩ := newPage_spec h
  obtain ⟨hsize, hfree⟩ := newPage_layout_freeList h
  unfold Page.Holds at hhold
  intro o ho
  have hzero : live.countP (blockCovers · (page.ptr + o)) = 0 :=
    List.countP_eq_zero.2 fun b hb => by simp [blockCovers_of_apart (hlive b hb) ho]
  rw [List.countP_cons, hzero, hfree, List.countP_singleton]
  simp only [FreeRange.Covers, blockCovers, Bool.and_eq_true, decide_eq_true_eq]
  split_ifs <;> omega

/-! ### What `allocate` does to the pages -/

/-- **`allocate`, inverted**: the block comes from the first fit in some page, which is split,
the other pages staying as they are; or from a new page pushed at the end. -/
theorem allocate_eq_some {ALIGN sysPtr : Nat} {layout : Layout} :
    ∀ {pages pages' : List Page} {addr : Nat}, allocate ALIGN sysPtr layout pages = some (pages', addr) →
      (∃ pre page post idx allocStart, pages = pre ++ page :: post ∧
        findFit page.ptr layout 0 page.freeList = some (idx, allocStart) ∧
        pages' = pre ++ page.carve layout.size idx allocStart :: post ∧ addr = page.ptr + allocStart) ∨
      (∃ page, newPage ALIGN sysPtr layout = some page ∧ pages' = pages ++ [page] ∧ addr = sysPtr)
  | [], _, _, h => by
    obtain ⟨page, hn, he⟩ := Option.map_eq_some'.1 h
    cases he
    exact .inr ⟨page, hn, rfl, rfl⟩
  | page :: pages, _, _, h => by
    rw [allocate] at h
    split at h
    · rename_i idx allocStart hf
      cases h
      exact .inl ⟨[], page, pages, idx, allocStart, rfl, hf, rfl, rfl⟩
    · obtain ⟨⟨pages', addr⟩, hr, he⟩ := Option.map_eq_some'.1 h
      cases he
      rcases allocate_eq_some hr with ⟨pre, p, post, idx, a, rfl, hf, rfl, rfl⟩ | ⟨n, hn, rfl, rfl⟩
      · exact .inl ⟨page :: pre, p, post, idx, a, rfl, hf, rfl, rfl⟩
      · exact .inr ⟨n, hn, rfl, rfl⟩

/-! ### Tiled heaps -/

/-- **A tiled heap**: the pages are apart, every live block is non-empty, and every byte of
every page is in exactly one free range of the page or one live block (with the free ranges
inside their pages and the live blocks in pages, `Heap.Placed`). -/
structure Heap.Tiled (h : Heap) : Prop where
  placed : h.Placed
  apart : (h.pages.map Page.bounds).Pairwise Apart
  live_pos : ∀ b ∈ h.live, 0 < b.2
  tiles : ∀ page ∈ h.pages, page.Tiles h.live

theorem Heap.Tiled.empty : Heap.Tiled ⟨[], []⟩ := ⟨.empty, .nil, nofun, nofun⟩

section Allocate

variable {ALIGN sysPtr : Nat} {layout : Layout} {h : Heap}

/-- The first fit in a page of a tiled heap keeps it tiled. -/
theorem Heap.Tiled.carve (ht : h.Tiled) {pre post : List Page} {page : Page} {idx allocStart : Nat}
    (hpages : h.pages = pre ++ page :: post)
    (hf : findFit page.ptr layout 0 page.freeList = some (idx, allocStart)) :
    ∀ q ∈ pre ++ page.carve layout.size idx allocStart :: post,
      q.Tiles ((page.ptr + allocStart, layout.size) :: h.live) := by
  have hin : page ∈ h.pages := by rw [hpages]; simp
  have hhold := (findFit_block (ht.placed.inBounds page hin) hf).2.1
  have happ := ht.apart
  rw [hpages, List.map_append, List.map_cons, List.pairwise_append, List.pairwise_cons] at happ
  intro q hq
  rcases List.mem_append.1 hq with hq | hq
  · refine (ht.tiles q (by rw [hpages]; simp [hq])).cons_apart (Apart.of_holds hhold ?_)
    exact (happ.2.2 _ (List.mem_map_of_mem _ hq) _ (List.mem_cons_self _ _)).symm
  · rcases List.mem_cons.1 hq with rfl | hq
    · exact (ht.tiles page hin).carve hf
    · refine (ht.tiles q (by rw [hpages]; simp [hq])).cons_apart (Apart.of_holds hhold ?_)
      exact happ.2.1.1 _ (List.mem_map_of_mem _ hq)

/-- **An allowed `allocate` keeps a heap tiled.** -/
theorem Heap.Tiled.allocate (ht : h.Tiled) {h' : Heap} (hc : h.Allowed ALIGN (.allocate layout sysPtr))
    (he : h.call ALIGN (.allocate layout sysPtr) = some h') : h'.Tiled := by
  have hplaced := ht.placed.call hc he
  obtain ⟨⟨pages', addr⟩, ha, rfl⟩ := Option.map_eq_some'.1 he
  obtain ⟨hpos, -, hdisj⟩ := hc
  have hlive_pos : ∀ b ∈ (addr, layout.size) :: h.live, 0 < b.2 :=
    List.forall_mem_cons.2 ⟨hpos, ht.live_pos⟩
  rcases allocate_eq_some ha with ⟨pre, page, post, idx, a, hpages, hf, rfl, rfl⟩ |
    ⟨n, hn, rfl, rfl⟩
  · have hmap : (pre ++ page.carve layout.size idx a :: post).map Page.bounds =
        h.pages.map Page.bounds := by
      simp [hpages, Page.carve_bounds]
    exact ⟨hplaced, hmap ▸ ht.apart, hlive_pos, ht.carve hpages hf⟩
  · obtain ⟨hptr, -, -⟩ := newPage_spec hn
    have hsize := (newPage_layout_freeList hn).1
    have hnew : ∀ q ∈ h.pages, Apart q.bounds n.bounds := fun q hq => by
      unfold Apart Page.bounds
      rw [hptr, hsize]
      exact (hdisj q hq).symm
    have hlive : ∀ b ∈ h.live, Apart b n.bounds := fun b hb => by
      obtain ⟨q, hq, hhold⟩ := ht.placed.live_held b hb
      exact Apart.of_holds hhold (hnew q hq)
    refine ⟨hplaced, ?_, hlive_pos, ?_⟩
    · rw [List.map_append, List.pairwise_append]
      refine ⟨ht.apart, List.pairwise_singleton _ _, fun x hx y hy => ?_⟩
      obtain ⟨q, hq, rfl⟩ := List.mem_map.1 hx
      rw [List.map_singleton, List.mem_singleton] at hy
      exact hy ▸ hnew q hq
    · intro q hq
      rcases List.mem_append.1 hq with hq | hq
      · refine (ht.tiles q hq).cons_apart (Apart.of_holds ?_ (hnew q hq).symm)
        exact (newPage_spec hn).2.2
      · rw [List.mem_singleton] at hq
        exact hq ▸ newPage_tiles hn hlive

end Allocate

/-! ### What `deallocate` does to the pages -/

/-- **`deallocate`, inverted**: the first page that holds the block gets it back through the
merge, the other pages staying as they are. -/
theorem deallocate_eq_some {ptr : Nat} {layout : Layout} :
    ∀ {pages pages' : List Page}, deallocate ptr layout pages = some pages' →
      ∃ pre page post, pages = pre ++ page :: post ∧ page.Holds (ptr, layout.size) ∧
        pages' = pre ++ { page with freeList :=
          if (mergeFree (ptr - page.ptr) layout.size page.freeList).2 then
            (mergeFree (ptr - page.ptr) layout.size page.freeList).1
          else (mergeFree (ptr - page.ptr) layout.size page.freeList).1 ++
            [⟨ptr - page.ptr, layout.size⟩] } :: post
  | [], _, h => nomatch h
  | page :: pages, _, h => by
    rw [deallocate] at h
    split at h
    · rename_i hin
      cases h
      exact ⟨[], page, pages, rfl, hin, rfl⟩
    · obtain ⟨pages', hr, rfl⟩ := Option.map_eq_some'.1 h
      obtain ⟨pre, p, post, rfl, hh, rfl⟩ := deallocate_eq_some hr
      exact ⟨page :: pre, p, post, rfl, hh, rfl⟩

/-- Without a free range that starts at the block's end, the merge grows every range that ends
at the block's start by the block, keeps the others, and reports whether it grew one. -/
theorem mergeFree_of_no_right {start size : Nat} :
    ∀ {l : List FreeRange}, (∀ r ∈ l, start + size ≠ r.start) →
      mergeFree start size l =
        (l.map fun r => if start = r.start + r.len then ⟨r.start, r.len + size⟩ else r,
          l.any fun r => start = r.start + r.len)
  | [], _ => rfl
  | r :: rest, h => by
    rw [mergeFree, mergeFree_of_no_right fun q hq => h q (.tail _ hq)]
    have := h r (.head _)
    by_cases e : start = r.start + r.len <;> simp [e, this]

/-- How many of the grown ranges hold the offset `o`: the ranges that held it, and, for an
offset of the block, the ranges that ended at its start. -/
theorem countP_grown (o start size : Nat) : ∀ l : List FreeRange,
    (l.map fun r => if start = r.start + r.len then (⟨r.start, r.len + size⟩ : FreeRange) else r).countP
        (·.Covers o) =
      l.countP (·.Covers o) +
        if start ≤ o ∧ o < start + size then l.countP (fun r => start = r.start + r.len) else 0
  | [] => by simp
  | r :: rest => by
    simp only [List.map_cons, List.countP_cons, countP_grown o start size rest]
    by_cases e : start = r.start + r.len <;>
      simp only [e, if_true, if_false, FreeRange.Covers, Bool.and_eq_true, decide_eq_true_eq,
        decide_True, decide_False, Bool.false_eq_true] <;>
      split_ifs <;> omega

/-- Erasing a member takes it out of every count it was in. -/
theorem countP_erase_of_mem {l : List (Nat × Nat)} {b : Nat × Nat} (hb : b ∈ l) (p : Nat × Nat → Bool) :
    l.countP p = (l.erase b).countP p + if p b then 1 else 0 := by
  obtain ⟨l₁, l₂, -, e₁, e₂⟩ := List.exists_erase_eq hb
  rw [e₂, e₁, List.countP_append, List.countP_cons, List.countP_append]
  omega

/-- Freeing a block apart from the page leaves its tiling as it is. -/
theorem Page.Tiles.erase_apart {page : Page} {live : List (Nat × Nat)} {b : Nat × Nat}
    (h : page.Tiles live) (hb : b ∈ live) (hap : Apart b page.bounds) : page.Tiles (live.erase b) := by
  intro o ho
  have hcount := h o ho
  rwa [countP_erase_of_mem hb, blockCovers_of_apart hap ho, if_neg Bool.false_ne_true,
    Nat.add_zero] at hcount

/-- **Freeing a block keeps its page tiled** when no free range of the page starts at the block's
end and at most one ends at its start: the block goes back into the range that ended at its
start, or becomes a range of its own. -/
theorem Page.Tiles.free {page : Page} {live : List (Nat × Nat)} {ptr size : Nat}
    (h : page.Tiles live) (hb : (ptr, size) ∈ live) (hhold : page.Holds (ptr, size))
    (hright : ∀ r ∈ page.freeList, ptr - page.ptr + size ≠ r.start)
    (hleft : page.freeList.countP (fun r => ptr - page.ptr = r.start + r.len) ≤ 1) :
    ({ page with freeList :=
      if (mergeFree (ptr - page.ptr) size page.freeList).2 then
        (mergeFree (ptr - page.ptr) size page.freeList).1
      else (mergeFree (ptr - page.ptr) size page.freeList).1 ++ [⟨ptr - page.ptr, size⟩] } : Page).Tiles
      (live.erase (ptr, size)) := by
  unfold Page.Holds at hhold
  dsimp only at hhold
  intro o ho
  have hcount := h o ho
  rw [countP_erase_of_mem hb] at hcount
  have hg := countP_grown o (ptr - page.ptr) size page.freeList
  dsimp only at ho ⊢
  rw [mergeFree_of_no_right hright]
  dsimp only
  split
  · rename_i hany
    have hpos : 0 < page.freeList.countP (fun r => ptr - page.ptr = r.start + r.len) :=
      List.countP_pos_iff.2 (List.any_eq_true.1 hany)
    simp only [blockCovers, FreeRange.Covers, Bool.and_eq_true, decide_eq_true_eq] at hcount hg ⊢
    split_ifs at hcount hg <;> omega
  · rename_i hany
    have hzero : page.freeList.countP (fun r => ptr - page.ptr = r.start + r.len) = 0 :=
      List.countP_eq_zero.2 fun r hr he => hany (List.any_eq_true.2 ⟨r, hr, he⟩)
    rw [hzero] at hg
    rw [List.countP_append, List.countP_singleton]
    simp only [blockCovers, FreeRange.Covers, Bool.and_eq_true, decide_eq_true_eq] at hcount hg ⊢
    split_ifs at hcount hg ⊢ <;> omega

/-- The merge of `deallocate ptr layout` cannot go wrong: in every page that holds the block,
no free range starts at the block's end, and at most one ends at its start. -/
def Heap.MergeSafe (h : Heap) (ptr : Nat) (layout : Layout) : Prop :=
  ∀ page ∈ h.pages, page.Holds (ptr, layout.size) →
    (∀ r ∈ page.freeList, ptr - page.ptr + layout.size ≠ r.start) ∧
      page.freeList.countP (fun r => ptr - page.ptr = r.start + r.len) ≤ 1

/-- **An allowed `deallocate` with a safe merge keeps a heap tiled.** -/
theorem Heap.Tiled.deallocate {ALIGN ptr : Nat} {layout : Layout} {h h' : Heap} (ht : h.Tiled)
    (hc : h.Allowed ALIGN (.deallocate ptr layout)) (hsafe : h.MergeSafe ptr layout)
    (he : h.call ALIGN (.deallocate ptr layout) = some h') : h'.Tiled := by
  have hplaced := ht.placed.call hc he
  obtain ⟨pages', hd, rfl⟩ := Option.map_eq_some'.1 he
  obtain ⟨pre, page, post, hpages, hhold, rfl⟩ := deallocate_eq_some hd
  have hin : page ∈ h.pages := by rw [hpages]; simp
  obtain ⟨hright, hleft⟩ := hsafe page hin hhold
  have happ := ht.apart
  rw [hpages, List.map_append, List.map_cons, List.pairwise_append, List.pairwise_cons] at happ
  have hmap : (pre ++ { page with freeList :=
      if (mergeFree (ptr - page.ptr) layout.size page.freeList).2 then
        (mergeFree (ptr - page.ptr) layout.size page.freeList).1
      else (mergeFree (ptr - page.ptr) layout.size page.freeList).1 ++
        [⟨ptr - page.ptr, layout.size⟩] } :: post).map Page.bounds = h.pages.map Page.bounds := by
    rw [hpages, List.map_append, List.map_append, List.map_cons, List.map_cons]
    rfl
  refine ⟨hplaced, hmap ▸ ht.apart, fun b hb => ht.live_pos b (List.mem_of_mem_erase hb), ?_⟩
  intro q hq
  rcases List.mem_append.1 hq with hq | hq
  · refine (ht.tiles q (by rw [hpages]; simp [hq])).erase_apart hc (Apart.of_holds hhold ?_)
    exact (happ.2.2 _ (List.mem_map_of_mem _ hq) _ (List.mem_cons_self _ _)).symm
  · rcases List.mem_cons.1 hq with rfl | hq
    · exact (ht.tiles page hin).free hc hhold hright hleft
    · refine (ht.tiles q (by rw [hpages]; simp [hq])).erase_apart hc (Apart.of_holds hhold ?_)
      exact happ.2.1.1 _ (List.mem_map_of_mem _ hq)

/-! ### Runs with safe merges -/

/-- The heaps a sequence of allowed calls reaches from no pages when the merge of every
`deallocate` is safe; every sequence of allocations alone is one. -/
inductive Heap.SafeRun (ALIGN : Nat) : Heap → Prop
  | empty : Heap.SafeRun ALIGN ⟨[], []⟩
  | allocate {h h' : Heap} (layout : Layout) (sysPtr : Nat) : Heap.SafeRun ALIGN h →
      h.Allowed ALIGN (.allocate layout sysPtr) → h.call ALIGN (.allocate layout sysPtr) = some h' →
      Heap.SafeRun ALIGN h'
  | deallocate {h h' : Heap} (ptr : Nat) (layout : Layout) : Heap.SafeRun ALIGN h →
      h.Allowed ALIGN (.deallocate ptr layout) → h.MergeSafe ptr layout →
      h.call ALIGN (.deallocate ptr layout) = some h' → Heap.SafeRun ALIGN h'

section SafeRun

variable {ALIGN : Nat} {h : Heap}

theorem Heap.SafeRun.tiled (hr : Heap.SafeRun ALIGN h) : h.Tiled := by
  induction hr with
  | empty => exact .empty
  | allocate layout sysPtr _ hc he ih => exact ih.allocate hc he
  | deallocate ptr layout _ hc hsafe he ih => exact ih.deallocate hc hsafe he

end SafeRun

/-- In a tiled heap no two live blocks share a byte: a shared byte lies in the page of the first
block, where it would be counted twice. -/
theorem Heap.Tiled.liveDisjoint {h : Heap} (ht : h.Tiled) : h.LiveDisjoint := by
  unfold Heap.LiveDisjoint
  rw [List.pairwise_iff_forall_sublist]
  intro a b hab
  have ha : a ∈ h.live := hab.subset (List.mem_cons_self _ _)
  have hb : b ∈ h.live := hab.subset (by simp)
  obtain ⟨page, hp, hhold⟩ := ht.placed.live_held a ha
  have hpa := ht.live_pos a ha
  have hpb := ht.live_pos b hb
  unfold Page.Holds at hhold
  by_contra hov
  rw [not_or, Nat.not_le, Nat.not_le] at hov
  have hcount := ht.tiles page hp (max a.1 b.1 - page.ptr) (by omega)
  have htwo := hab.countP_le (blockCovers · (page.ptr + (max a.1 b.1 - page.ptr)))
  simp only [List.countP_cons, List.countP_nil, blockCovers, Bool.and_eq_true, decide_eq_true_eq]
    at htwo hcount
  split_ifs at htwo with h₁ h₂ <;> omega

/-- In a tiled heap no byte of a page is lost. -/
theorem Heap.Tiled.noByteLost {h : Heap} (ht : h.Tiled) : h.NoByteLost := by
  intro page hp o ho
  have hcount := ht.tiles page hp o ho
  rcases Nat.eq_zero_or_pos (page.freeList.countP (·.Covers o)) with h0 | hpos
  · obtain ⟨b, hb, hc⟩ := List.countP_pos_iff.1
      (show 0 < h.live.countP (blockCovers · (page.ptr + o)) by omega)
    simp only [blockCovers, Bool.and_eq_true, decide_eq_true_eq] at hc
    exact .inr ⟨b, hb, hc⟩
  · exact .inl (List.countP_pos_iff.1 hpos)

/-- **With safe merges the allocator never hands out a byte twice nor loses one.** Every heap a
sequence of allowed calls reaches from no pages, in which no `deallocate` frees a block that a
free range of its page begins right after (or that two free ranges end right before), has no two
live blocks sharing a byte, and every byte of every page free or in a live block. Every run of
allocations alone is such a run. -/
theorem safe_runs_keep_blocks_apart {ALIGN : Nat} {h : Heap} (hr : Heap.SafeRun ALIGN h) :
    h.LiveDisjoint ∧ h.NoByteLost :=
  ⟨hr.tiled.liveDisjoint, hr.tiled.noByteLost⟩

/-- With `ALIGN = 16`: a block of four bytes makes a page at `16`, a second one is cut from its
free range at `20`, and the first is freed, becoming a range of its own. -/
theorem safe_runs_keep_blocks_apart_alloc_alloc_free :
    (⟨[⟨16, ⟨16, 16, 4, rfl⟩, [⟨8, 8⟩, ⟨0, 4⟩]⟩], [(20, 4)]⟩ : Heap).LiveDisjoint ∧
      (⟨[⟨16, ⟨16, 16, 4, rfl⟩, [⟨8, 8⟩, ⟨0, 4⟩]⟩], [(20, 4)]⟩ : Heap).NoByteLost :=
  have r₁ : Heap.SafeRun 16 ⟨[⟨16, ⟨16, 16, 4, rfl⟩, [⟨4, 12⟩]⟩], [(16, 4)]⟩ :=
    .allocate ⟨4, 4, 2, rfl⟩ 16 .empty ⟨by decide, rfl, nofun⟩ rfl
  have r₂ : Heap.SafeRun 16 ⟨[⟨16, ⟨16, 16, 4, rfl⟩, [⟨8, 8⟩]⟩], [(20, 4), (16, 4)]⟩ :=
    .allocate ⟨4, 4, 2, rfl⟩ 32 r₁ ⟨by decide, by decide, by decide⟩ rfl
  safe_runs_keep_blocks_apart (.deallocate 16 ⟨4, 4, 2, rfl⟩ r₂
    (show (16, 4) ∈ [(20, 4), (16, 4)] by decide)
    (fun page hp _ => by rw [List.mem_singleton] at hp; subst hp; decide) rfl)

end Io2Proofs.LocalAlloc
