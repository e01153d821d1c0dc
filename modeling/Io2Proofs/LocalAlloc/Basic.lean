import Mathlib.Data.List.Basic
import Mathlib.Order.Basic
import Mathlib.Algebra.Group.Nat.Basic

/-!
# `LocalAlloc`: pages, free ranges, `allocate` and `deallocate`

`local_alloc.rs` is a first-fit allocator over pages obtained from `std::alloc::alloc`. Every
page keeps a list of free ranges, each an offset into the page and a length. `allocate` takes
the first range of the first page where the block fits at the requested alignment and splits
it; when no page has room it allocates a new page whose only free range is what the block
leaves. `deallocate` finds the page that holds the block and merges the block into a free
range that ends where it starts or starts where it ends, or pushes it as a range of its own.

The page record and the free lists are taken as `allocate` and `deallocate` use them (the
`Page` the functions build has a pointer, a `Layout` and a free list). Addresses are `usize`
values, counted in `Nat`. Two things the functions use come from outside:

* the constant `ALIGN`, which the source does not define: it is an argument;
* `std::alloc::alloc(page_layout)`: the address it returns, `sysPtr`, is an argument of
  `allocate`, used when a new page is needed.
-/

namespace Io2Proofs.LocalAlloc

/-! ### Layouts and `next_multiple_of` -/

/-- `Layout`: a size and an alignment, which is a power of two. (`Layout`'s own invariant also
bounds the size; the code builds a layout only through `from_size_align`, which checks it.) -/
structure Layout where
  size : Nat
  align : Nat
  align_pow : ∃ k, align = 2 ^ k

theorem Layout.align_pos (l : Layout) : 0 < l.align := by
  obtain ⟨k, hk⟩ := l.align_pow; rw [hk]; exact Nat.two_pow_pos k

/-- `isize::MAX` on a 64-bit target. -/
def isizeMax : Nat := 2 ^ 63 - 1

/-- `Layout::from_size_align(size, align)`: `None` when the alignment is not a power of two, or
when the size rounded up to the alignment would pass `isize::MAX`
(`size > isize::MAX - (align - 1)`). -/
def Layout.fromSizeAlign (size align : Nat) : Option Layout :=
  if h : ∃ k < align, align = 2 ^ k then
    if size ≤ isizeMax - (align - 1) then some ⟨size, align, h.imp fun _ h => h.2⟩ else none
  else none

theorem Layout.fromSizeAlign_two_pow (size k : Nat) :
    Layout.fromSizeAlign size (2 ^ k) =
      if size ≤ isizeMax - (2 ^ k - 1) then some ⟨size, 2 ^ k, k, rfl⟩ else none := by
  rw [Layout.fromSizeAlign, dif_pos ⟨k, Nat.lt_two_pow k, rfl⟩]

/-- `usize::next_multiple_of(rhs)` for `rhs > 0`: the least multiple of `rhs` not below `n`. -/
def nextMultipleOf (n rhs : Nat) : Nat := if n % rhs = 0 then n else n + (rhs - n % rhs)

theorem le_nextMultipleOf (n rhs : Nat) : n ≤ nextMultipleOf n rhs := by
  unfold nextMultipleOf; split <;> omega

theorem nextMultipleOf_mod (n : Nat) {rhs : Nat} (h : 0 < rhs) : nextMultipleOf n rhs % rhs = 0 := by
  unfold nextMultipleOf
  split
  · assumption
  · have := Nat.mod_lt n h
    rw [Nat.add_mod, Nat.mod_eq_of_lt (show rhs - n % rhs < rhs by omega), Nat.add_sub_cancel' (by omega),
      Nat.mod_self]

@[simp] theorem nextMultipleOf_one (n : Nat) : nextMultipleOf n 1 = n := by
  simp [nextMultipleOf, Nat.mod_one]

/-! ### Pages -/

/-- `FreeRange`: `len` free bytes from offset `start` of a page. -/
structure FreeRange where
  start : Nat
  len : Nat
  deriving DecidableEq, Repr

/-- The range holds the offset `o`. -/
def FreeRange.Covers (r : FreeRange) (o : Nat) : Bool := r.start ≤ o && o < r.start + r.len

/-- `Page`: the address `std::alloc::alloc` returned, the layout it was asked for, and the free
ranges. -/
structure Page where
  ptr : Nat
  layout : Layout
  freeList : List FreeRange

/-- Some free range of the page holds the offset `o`. -/
def Page.IsFree (page : Page) (o : Nat) : Prop := ∃ r ∈ page.freeList, r.Covers o

/-! ### `allocate` -/

/-- The inner `for (page_idx, range) in page.free_list.iter().enumerate()` of `allocate`: the
first range where a block of `layout` fits once its start is rounded up to the alignment, with
the block's offset. -/
def findFit (ptr : Nat) (layout : Layout) : Nat → List FreeRange → Option (Nat × Nat)
  | _, [] => none
  | pageIdx, range :: rest =>
    let allocStart := nextMultipleOf (ptr + range.start) layout.align - ptr
    if allocStart + layout.size > range.start + range.len then findFit ptr layout (pageIdx + 1) rest
    else some (pageIdx, allocStart)

/-- The split in `if let Some(alloc) = alloc`: the range the block came from loses the block;
when the block does not start at the range's start, the range keeps the part before the block
and the part after it is pushed as a new range. (The `unwrap` of `free_list.get(alloc.0)` is
on an index `findFit` returned.) -/
def Page.carve (page : Page) (size idx allocStart : Nat) : Page :=
  let range := page.freeList.getD idx ⟨0, 0⟩
  if allocStart = range.start then
    { page with freeList := page.freeList.set idx ⟨range.start + size, range.len - size⟩ }
  else
    let newLen := allocStart - range.start
    let pushed := page.freeList ++ [⟨allocStart + size, range.len - newLen - size⟩]
    { page with freeList := pushed.set idx ⟨range.start, newLen⟩ }

/-- The page `allocate` makes when no page has room: `ALIGN` rounded up to the block's size and
alignment, holding the block at its start. `None` is a panic: `next_multiple_of(0)` for a block
of size `0`, or `Layout::from_size_align(..).unwrap()`. -/
def newPage (ALIGN sysPtr : Nat) (layout : Layout) : Option Page :=
  if layout.size = 0 then none
  else
    let align := nextMultipleOf ALIGN layout.align
    let size := nextMultipleOf ALIGN layout.size
    (Layout.fromSizeAlign size align).map fun pageLayout =>
      ⟨sysPtr, pageLayout, [⟨layout.size, size - layout.size⟩]⟩

/-- **`LocalAlloc::allocate(layout)`.** The pages after the call and the block's address; the
new page, if one is needed, goes at the end (`pages.push`). -/
def allocate (ALIGN sysPtr : Nat) (layout : Layout) : List Page → Option (List Page × Nat)
  | [] => (newPage ALIGN sysPtr layout).map fun page => ([page], sysPtr)
  | page :: pages =>
    match findFit page.ptr layout 0 page.freeList with
    | some (idx, allocStart) => some (page.carve layout.size idx allocStart :: pages, page.ptr + allocStart)
    | none => (allocate ALIGN sysPtr layout pages).map fun (pages', addr) => (page :: pages', addr)

/-! ### `deallocate` -/

/-- The `for range in page.free_list.iter_mut()` loop of `deallocate` for the block at offsets
`[start, start + size)`: a range that ends at `start` grows by `size`; otherwise a range that
starts at the block's end has its start moved back by `size`. The flag is `found`. -/
def mergeFree (start size : Nat) : List FreeRange → List FreeRange × Bool
  | [] => ([], false)
  | range :: rest =>
    let (rest', found) := mergeFree start size rest
    if start = range.start + range.len then (⟨range.start, range.len + size⟩ :: rest', true)
    else if start + size = range.start then (⟨range.start - size, range.len⟩ :: rest', true)
    else (range :: rest', found)

/-- **`LocalAlloc::deallocate(ptr, layout)`.** The first page whose bytes hold the block gets
the block back; `None` is the `panic!("bad deallocate")` when no page does. -/
def deallocate (ptr : Nat) (layout : Layout) : List Page → Option (List Page)
  | [] => none
  | page :: pages =>
    if page.ptr ≤ ptr ∧ ptr + layout.size ≤ page.ptr + page.layout.size then
      let start := ptr - page.ptr
      let (freeList, found) := mergeFree start layout.size page.freeList
      some ({ page with freeList := if found then freeList else freeList ++ [⟨start, layout.size⟩] }
        :: pages)
    else (deallocate ptr layout pages).map (page :: ·)

/-! ### Runs of calls -/

/-- The allocator's pages, and the blocks handed out and not yet freed, as address and size. -/
structure Heap where
  pages : List Page
  live : List (Nat × Nat)

/-- A call of the `Allocator` interface. `sysPtr` is what `std::alloc::alloc` returns if the
call needs a new page. -/
inductive Call
  | allocate (layout : Layout) (sysPtr : Nat)
  | deallocate (ptr : Nat) (layout : Layout)

/-- One call on the heap; `none` is a panic. -/
def Heap.call (ALIGN : Nat) (h : Heap) : Call → Option Heap
  | .allocate layout sysPtr =>
    (allocate ALIGN sysPtr layout h.pages).map fun (pages, addr) => ⟨pages, (addr, layout.size) :: h.live⟩
  | .deallocate ptr layout =>
    (deallocate ptr layout h.pages).map fun pages => ⟨pages, h.live.erase (ptr, layout.size)⟩

/-- The bytes `[addr, addr + size)` of a block lie in the page. -/
def Page.Holds (page : Page) (b : Nat × Nat) : Prop :=
  page.ptr ≤ b.1 ∧ b.1 + b.2 ≤ page.ptr + page.layout.size

/-- The calls the allocator is written for. An allocation asks for a non-zero size, and
`std::alloc::alloc` answers with an address aligned as the page layout asks whose bytes are no
other page's; a deallocation is given a live block with the size it was allocated with. -/
def Heap.Allowed (ALIGN : Nat) (h : Heap) : Call → Prop
  | .allocate layout sysPtr =>
    0 < layout.size ∧ sysPtr % nextMultipleOf ALIGN layout.align = 0 ∧
      ∀ page ∈ h.pages, sysPtr + nextMultipleOf ALIGN layout.size ≤ page.ptr ∨
        page.ptr + page.layout.size ≤ sysPtr
  | .deallocate ptr layout => (ptr, layout.size) ∈ h.live

/-- The heaps a sequence of allowed calls reaches from no pages. -/
inductive Heap.Reachable (ALIGN : Nat) : Heap → Prop
  | empty : Heap.Reachable ALIGN ⟨[], []⟩
  | call {h h' : Heap} (c : Call) :
      Heap.Reachable ALIGN h → h.Allowed ALIGN c → h.call ALIGN c = some h' → Heap.Reachable ALIGN h'

end Io2Proofs.LocalAlloc
