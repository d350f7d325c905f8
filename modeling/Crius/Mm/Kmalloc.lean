import Crius.Mm.Pmm

/-!
# The kernel heap

`mm/kmalloc.c` over a memory of 64-bit words. A block starts with a `struct block` of four
words (size, flag, `next`, `prev`) and ends with a footer word that repeats the size; all
its addresses are multiples of 8. The flag is a `bool` whose word holds 0 or 1. Pointers
are addresses with 0 for `NULL`.

The loops carry a step budget: a result of `none` means that the loop has not ended by
then. What the page allocator answers is an argument of the operation.
-/
namespace Crius.Mm

def maxPageRuns : Nat := 256

/-- `sizeof(struct block)` -/
def headerSize : Nat := 32

/-- `sizeof(struct footer)` -/
def footerSize : Nat := 8

def minBlock : Nat := headerSize + footerSize + 16

structure PageRun where
  phys : Nat
  pageCount : Nat
  virt : Nat
  deriving DecidableEq, Repr

/-- The address after the run. -/
def PageRun.stop (r : PageRun) : Nat := r.virt + r.pageCount * pageSize

/-- The statics of `kmalloc.c` and the memory. `runs` is the used part of `page_runs[]`. -/
structure Heap where
  hhdm : Nat
  mem : Nat → Nat
  runs : List PageRun
  freeList : Nat

namespace Heap

def size (h : Heap) (b : Nat) : Nat := h.mem b
def free (h : Heap) (b : Nat) : Bool := h.mem (b + 8) ≠ 0
def next (h : Heap) (b : Nat) : Nat := h.mem (b + 16)
def prev (h : Heap) (b : Nat) : Nat := h.mem (b + 24)

def write (h : Heap) (a v : Nat) : Heap := { h with mem := Function.update h.mem a v }

def setFree (h : Heap) (b : Nat) (f : Bool) : Heap := h.write (b + 8) (if f then 1 else 0)

def setFooter (h : Heap) (b : Nat) : Heap := h.write (b + h.size b - footerSize) (h.size b)

end Heap

def freeListInsert (h : Heap) (b : Nat) : Heap :=
  let h := (h.write (b + 16) h.freeList).write (b + 24) 0
  let h := if h.freeList ≠ 0 then h.write (h.freeList + 24) b else h
  { h with freeList := b }

def freeListRemove (h : Heap) (b : Nat) : Heap :=
  let h := if h.prev b ≠ 0 then h.write (h.prev b + 16) (h.next b)
    else { h with freeList := h.next b }
  let h := if h.next b ≠ 0 then h.write (h.next b + 24) (h.prev b) else h
  (h.write (b + 16) 0).write (b + 24) 0

/-- The loop of `find_fit` from block `b` on. The inner option is the C result. -/
def findFitFrom (h : Heap) (total : Nat) : Nat → Nat → Option (Option Nat)
  | 0, _ => none
  | fuel + 1, b =>
    if b = 0 then some none
    else if h.free b ∧ total ≤ h.size b then some (some b)
    else findFitFrom h total fuel (h.next b)

/-- The number of bytes in the page runs, an upper bound for the number of blocks. -/
def Heap.capacity (h : Heap) : Nat := (h.runs.map fun r => r.pageCount * pageSize).sum

def findFit (h : Heap) (total : Nat) : Option (Option Nat) :=
  findFitFrom h total (h.capacity + 1) h.freeList

/-- The headers and footers that `split_block` writes: block `b` keeps `total` bytes. -/
def cutBlock (h : Heap) (b total : Nat) : Heap :=
  let n := b + total
  let h := (((h.write n (h.size b - total)).setFree n true).write (n + 16) 0).write (n + 24) 0
  ((h.write b total).setFooter n).setFooter b

def splitBlock (h : Heap) (b total : Nat) : Heap :=
  if h.size b < (total + minBlock) % 2 ^ 64 then h
  else freeListInsert (cutBlock h b total) (b + total)

/-- What the page allocator answers in one call of `new_page_run`: the result of
`pmm_alloc_pages` and, should that be 0, of `pmm_alloc_page`. -/
structure PageAnswer where
  many : Nat
  one : Nat
  deriving DecidableEq, Repr

/-- The run that `new_page_run` makes of the answer. -/
def grantedRun (hhdm needed : Nat) (answer : PageAnswer) : Option PageRun :=
  let pages := (needed + pageSize - 1) % 2 ^ 64 / pageSize
  let pages := if pages = 0 then 1 else pages
  if answer.many ≠ 0 then some ⟨answer.many, pages, hhdm + answer.many⟩
  else if answer.one ≠ 0 then some ⟨answer.one, 1, hhdm + answer.one⟩
  else none

/-- The run becomes one free block and enters the table. -/
def initRun (h : Heap) (r : PageRun) : Heap :=
  let first := r.virt
  let h := ((h.write first (r.pageCount * pageSize)).setFree first true).write (first + 16) 0
  let h := (h.write (first + 24) 0).setFooter first
  { h with runs := h.runs ++ [r] }

/-- `new_page_run`; the first component is the success of the call. -/
def newPageRun (h : Heap) (needed : Nat) (answer : PageAnswer) : Bool × Heap :=
  if maxPageRuns ≤ h.runs.length then (false, h)
  else
    match grantedRun h.hhdm needed answer with
    | none => (false, h)
    | some r => (true, freeListInsert (initRun h r) r.virt)

def kmallocInit (mem : Nat → Nat) (hhdm : Nat) (answer : PageAnswer) : Heap :=
  (newPageRun ⟨hhdm, mem, [], 0⟩ pageSize answer).2

/-- The size of the block for a request, in the arithmetic of `size_t`. -/
def blockTotal (size : Nat) : Nat :=
  let total := (size + headerSize + footerSize) % 2 ^ 64
  let total := (total + 7) % 2 ^ 64 / 8 * 8
  if total < minBlock then minBlock else total

/-- The end of `kmalloc`, for the block that `find_fit` returned. -/
def takeBlock (h : Heap) (b total : Nat) : Nat × Heap :=
  (b + headerSize, (splitBlock (freeListRemove h b) b total).setFree b false)

def kmalloc (h : Heap) (size : Nat) (answer : PageAnswer) : Option (Nat × Heap) :=
  if size = 0 then some (0, h)
  else
    let total := blockTotal size
    match findFit h total with
    | none => none
    | some (some b) => some (takeBlock h b total)
    | some none =>
      match newPageRun h total answer with
      | (false, h) => some (0, h)
      | (true, h) =>
        match findFit h total with
        | none => none
        | some none => some (0, h)
        | some (some b) => some (takeBlock h b total)

/-- `find_page_run`: the index of the run in the table. -/
def findPageRun (h : Heap) (b : Nat) : Option Nat :=
  h.runs.findIdx? fun r => r.virt ≤ b ∧ b < r.stop

def Heap.run (h : Heap) (b : Nat) : Option PageRun := (findPageRun h b).bind (h.runs[·]?)

/-- `merge_forward`; the block it returns is the one it was given. -/
def mergeForward (b : Nat) : Nat → Heap → Option Heap
  | 0, _ => none
  | fuel + 1, h =>
    match h.run b with
    | none => some h
    | some r =>
      let n := b + h.size b
      if r.stop ≤ n then some h
      else if !h.free n then some h
      else
        let h := freeListRemove h n
        mergeForward b fuel ((h.write b (h.size b + h.size n)).setFooter b)

/-- `merge_backward`, with the block it returns. -/
def mergeBackward : Nat → Heap → Nat → Option (Nat × Heap)
  | 0, _, _ => none
  | fuel + 1, h, b =>
    match h.run b with
    | none => some (b, h)
    | some r =>
      if b ≤ r.virt + footerSize then some (b, h)
      else
        let p := b - h.mem (b - footerSize)
        if p < r.virt then some (b, h)
        else if !h.free p then some (b, h)
        else
          let h := freeListRemove h p
          let h := (h.write p (h.size p + h.size b)).setFooter p
          mergeBackward fuel (freeListRemove h b) p

/-- The last entry of the table takes the place of entry `i`, which holds `r`. -/
def dropRun (h : Heap) (i : Nat) (r : PageRun) : Heap :=
  { h with runs := (h.runs.set i (h.runs.getLast?.getD r)).dropLast }

/-- The end of `kfree`: a run that is one free block goes back to the page allocator. The
first component is what `pmm_free_pages` is called with. -/
def releaseRun (h : Heap) (i : Nat) (r : PageRun) (b : Nat) : Option (Nat × Nat) × Heap :=
  if h.size b = r.pageCount * pageSize ∧ b = r.virt then
    (some (r.phys, r.pageCount), dropRun (freeListRemove h b) i r)
  else (none, h)

def kfree (h : Heap) (ptr : Nat) : Option (Option (Nat × Nat) × Heap) :=
  if ptr = 0 then some (none, h)
  else
    let b := ptr - headerSize
    match findPageRun h b with
    | none => some (none, h)
    | some i =>
      match h.runs[i]? with
      | none => some (none, h)
      | some r =>
        if h.free b then some (none, h)
        else
          match mergeForward b (h.capacity + 1) (freeListInsert (h.setFree b true) b) with
          | none => none
          | some h =>
            match mergeBackward (h.capacity + 1) (h.setFooter b) b with
            | none => none
            | some (b, h) => some (releaseRun h i r b)

end Crius.Mm
