import Crius.Lib.DList
import Crius.Lib.Tiling
import Crius.Mm.Kmalloc

/-!
# Heap layout

What the words of the heap stand for. A layout gives, for the start address of each page
run, the blocks that tile the run; `Laid` says that the header and footer words in memory
describe these blocks. `FreeList` is about the link words only: the `next` and `prev` words
of a set of nodes that lie at least a header apart.

The two parts share no word: links stand behind the flag of a block and before its footer.
So a list operation keeps the layout, and a change of size or flag keeps the list.
-/
namespace Crius.Mm

open Lib.DList Lib.Tiling Lib.Chain

structure Blk where
  addr : Nat
  size : Nat
  free : Bool

def Blk.stop (b : Blk) : Nat := b.addr + b.size

/-- The header and the footer of the block in memory. -/
structure Blk.Ok (mem : Nat → Nat) (b : Blk) : Prop where
  size : mem b.addr = b.size
  flag : mem (b.addr + 8) = if b.free then 1 else 0
  footer : mem (b.stop - 8) = b.size
  min : minBlock ≤ b.size
  aligned : 8 ∣ b.size

/-- The words of a block that describe it. -/
def Blk.IsTag (b : Blk) (w : Nat) : Prop := w = b.addr ∨ w = b.addr + 8 ∨ w = b.stop - 8

/-- The blocks of the run that starts at an address. -/
abbrev Layout := Nat → List Blk

def PageRun.Apart (r s : PageRun) : Prop := r.stop ≤ s.virt ∨ s.stop ≤ r.virt

/-- A run that the page allocator can have granted. -/
structure PageRun.Ok (r : PageRun) : Prop where
  virt_ne_zero : r.virt ≠ 0
  aligned : pageSize ∣ r.virt
  pages_pos : 0 < r.pageCount
  stop_le : r.stop ≤ 2 ^ 64

instance (r s : PageRun) : Decidable (r.Apart s) := inferInstanceAs (Decidable (_ ∨ _))

instance (r : PageRun) : Decidable r.Ok :=
  decidable_of_iff (r.virt ≠ 0 ∧ pageSize ∣ r.virt ∧ 0 < r.pageCount ∧ r.stop ≤ 2 ^ 64)
    ⟨fun h => ⟨h.1, h.2.1, h.2.2.1, h.2.2.2⟩, fun h => ⟨h.1, h.2, h.3, h.4⟩⟩

structure Laid (h : Heap) (lay : Layout) : Prop where
  granted : ∀ r ∈ h.runs, r.Ok
  apart : h.runs.Pairwise PageRun.Apart
  tiles : ∀ r ∈ h.runs, Tiles Blk.addr Blk.stop r.virt r.stop (lay r.virt)
  ok : ∀ r ∈ h.runs, ∀ b ∈ lay r.virt, b.Ok h.mem

/-- A block of some run. -/
def InHeap (runs : List PageRun) (lay : Layout) (b : Blk) : Prop := ∃ r ∈ runs, b ∈ lay r.virt

/-- The address of a free block. -/
def Free (runs : List PageRun) (lay : Layout) (x : Nat) : Prop :=
  ∃ b, InHeap runs lay b ∧ b.free = true ∧ b.addr = x

theorem minBlock_eq : minBlock = 56 := rfl

theorem Blk.Ok.congr {mem mem' : Nat → Nat} {b : Blk} (hb : b.Ok mem)
    (h : ∀ w, b.IsTag w → mem' w = mem w) : b.Ok mem' where
  size := (h _ (.inl rfl)).trans hb.size
  flag := (h _ (.inr (.inl rfl))).trans hb.flag
  footer := (h _ (.inr (.inr rfl))).trans hb.footer
  min := hb.min
  aligned := hb.aligned

/-! ## Separation -/

theorem PageRun.Apart.symm {r s : PageRun} (h : r.Apart s) : s.Apart r := Or.symm h

theorem PageRun.Ok.lt_stop {r : PageRun} (h : r.Ok) : r.virt < r.stop := by
  have := h.pages_pos
  unfold PageRun.stop pageSize
  omega

namespace Laid

variable {h : Heap} {lay : Layout} {r s : PageRun} {b c : Blk}

section

variable (hl : Laid h lay)

include hl

theorem runs_apart (hr : r ∈ h.runs) (hs : s ∈ h.runs) : r = s ∨ r.Apart s := by
  have hsymm : Std.Symm PageRun.Apart := ⟨fun _ _ => PageRun.Apart.symm⟩
  by_cases hrs : r = s
  · exact .inl hrs
  · exact .inr (hl.apart.forall hr hs hrs)

/-- A run is known by its address. -/
theorem run_unique (hs : s ∈ h.runs) (hr : r ∈ h.runs) (hv : s.virt = r.virt) : s = r := by
  have := (hl.granted r hr).lt_stop
  have := (hl.granted s hs).lt_stop
  rcases hl.runs_apart hs hr with hsr | hsr | hsr
  · exact hsr
  · omega
  · omega

theorem block_in_run (hr : r ∈ h.runs) (hb : b ∈ lay r.virt) : r.virt ≤ b.addr ∧ b.stop ≤ r.stop :=
  ⟨(tiles_mem (hl.tiles r hr) hb).1, (tiles_mem (hl.tiles r hr) hb).2.2⟩

theorem size_ge (hb : InHeap h.runs lay b) : 56 ≤ b.size := by
  obtain ⟨r, hr, hb⟩ := hb
  exact (hl.ok r hr b hb).min

theorem addr_pos (hb : InHeap h.runs lay b) : 0 < b.addr := by
  obtain ⟨r, hr, hb⟩ := hb
  have hvirt := (hl.granted r hr).virt_ne_zero
  have := (hl.block_in_run hr hb).1
  omega

/-- A block belongs to one run. -/
theorem run_of_block (hs : s ∈ h.runs) (hr : r ∈ h.runs) (hbs : b ∈ lay s.virt)
    (hbr : b ∈ lay r.virt) : s = r := by
  have hsize := hl.size_ge ⟨r, hr, hbr⟩
  have h1 := hl.block_in_run hs hbs
  have h2 := hl.block_in_run hr hbr
  unfold Blk.stop at h1 h2
  rcases hl.runs_apart hs hr with heq | hap | hap
  · exact heq
  · omega
  · omega

/-- Two blocks are the same or do not overlap. -/
theorem sep (hb : InHeap h.runs lay b) (hc : InHeap h.runs lay c) :
    b = c ∨ b.stop ≤ c.addr ∨ c.stop ≤ b.addr := by
  obtain ⟨r, hr, hb⟩ := hb
  obtain ⟨s, hs, hc⟩ := hc
  rcases hl.runs_apart hr hs with rfl | hapart
  · exact tiles_apart (hl.tiles r hr) hb hc
  · have hbr := hl.block_in_run hr hb
    have hcs := hl.block_in_run hs hc
    rcases hapart with h1 | h1 <;> omega

theorem eq_of_addr (hb : InHeap h.runs lay b) (hc : InHeap h.runs lay c) (ha : b.addr = c.addr) :
    b = c := by
  have hbs := hl.size_ge hb
  have hcs := hl.size_ge hc
  rcases hl.sep hb hc with heq | h1 | h1
  · exact heq
  · unfold Blk.stop at h1
    omega
  · unfold Blk.stop at h1
    omega

/-- `find_page_run` finds the run of a block. -/
theorem findPageRun_eq (hr : r ∈ h.runs) (hb : b ∈ lay r.virt) :
    ∃ i, findPageRun h b.addr = some i ∧ h.runs[i]? = some r := by
  have hin := hl.block_in_run hr hb
  have hsize := hl.size_ge ⟨r, hr, hb⟩
  have hstop : b.stop = b.addr + b.size := rfl
  unfold findPageRun
  cases hfind : h.runs.findIdx? (fun r => r.virt ≤ b.addr ∧ b.addr < r.stop) with
  | none =>
    have hnone := List.findIdx?_eq_none_iff.mp hfind r hr
    simp only [decide_eq_false_iff_not] at hnone
    omega
  | some i =>
    obtain ⟨hi, hcover, -⟩ := List.findIdx?_eq_some_iff_getElem.mp hfind
    refine ⟨i, rfl, ?_⟩
    simp only [decide_eq_true_eq] at hcover
    rw [List.getElem?_eq_getElem hi]
    congr 1
    rcases hl.runs_apart (List.getElem_mem hi) hr with heq | h1 | h1
    · exact heq
    · omega
    · omega

theorem run_eq (hr : r ∈ h.runs) (hb : b ∈ lay r.virt) : h.run b.addr = some r := by
  obtain ⟨i, hi, hri⟩ := hl.findPageRun_eq hr hb
  rw [Heap.run, hi]
  exact hri

theorem mem_size (hb : InHeap h.runs lay b) : h.size b.addr = b.size := by
  obtain ⟨r, hr, hb⟩ := hb
  exact (hl.ok r hr b hb).size

theorem mem_free (hb : InHeap h.runs lay b) : h.free b.addr = b.free := by
  obtain ⟨r, hr, hb⟩ := hb
  have hflag := (hl.ok r hr b hb).flag
  unfold Heap.free
  rw [hflag]
  cases b.free <;> rfl

theorem mem_footer (hb : InHeap h.runs lay b) : h.mem (b.stop - footerSize) = b.size := by
  obtain ⟨r, hr, hb⟩ := hb
  exact (hl.ok r hr b hb).footer

end

end Laid

/-! ## The list -/

/-- A pointer, with `NULL` as no node. -/
def ptr (v : Nat) : Option Nat := if v = 0 then none else some v

@[simp] theorem ptr_zero : ptr 0 = none := rfl

theorem ptr_of_ne {v : Nat} (hv : v ≠ 0) : ptr v = some v := if_neg hv

theorem ptr_eq_some {v x : Nat} : ptr v = some x ↔ v = x ∧ x ≠ 0 := by
  unfold ptr
  split
  · constructor
    · intro hx
      cases hx
    · rintro ⟨rfl, hx⟩
      contradiction
  · simp only [Option.some.injEq]
    constructor
    · rintro rfl
      exact ⟨rfl, by assumption⟩
    · exact And.left

theorem ptr_eq_none {v : Nat} : ptr v = none ↔ v = 0 := by
  unfold ptr
  split <;> simp [*]

namespace Heap

def nextNode (h : Heap) (x : Nat) : Option Nat := ptr (h.next x)
def prevNode (h : Heap) (x : Nat) : Option Nat := ptr (h.prev x)
def headNode (h : Heap) : Option Nat := ptr h.freeList

end Heap

/-- Nodes whose headers do not overlap. -/
structure Nodes (F : Nat → Prop) : Prop where
  pos : ∀ x, F x → x ≠ 0
  sep : ∀ x y, F x → F y → x = y ∨ x + headerSize ≤ y ∨ y + headerSize ≤ x

structure FreeList (h : Heap) (F : Nat → Prop) : Prop where
  nodes : Nodes F
  linked : Linked h.nextNode h.prevNode h.headNode F

/-- Every node of the set is on the list. -/
def Whole (h : Heap) (F : Nat → Prop) : Prop := Complete h.nextNode h.headNode F

/-- A `next` or `prev` word of a node. -/
def IsLink (F : Nat → Prop) (w : Nat) : Prop := ∃ x, F x ∧ (w = x + 16 ∨ w = x + 24)

theorem Nodes.mono {F F' : Nat → Prop} (h : Nodes F) (hsub : ∀ x, F' x → F x) : Nodes F' :=
  ⟨fun x hx => h.pos x (hsub x hx), fun x y hx hy => h.sep x y (hsub x hx) (hsub y hy)⟩

variable {h : Heap} {lay : Layout} {w : Nat}

theorem Laid.nodes (hl : Laid h lay) : Nodes (Free h.runs lay) := by
  constructor
  · rintro x ⟨b, hb, -, rfl⟩
    have := hl.addr_pos hb
    omega
  · rintro x y ⟨b, hb, -, rfl⟩ ⟨c, hc, -, rfl⟩
    have hbs := hl.size_ge hb
    have hcs := hl.size_ge hc
    unfold headerSize
    rcases hl.sep hb hc with rfl | h1 | h1
    · exact .inl rfl
    · unfold Blk.stop at h1
      omega
    · unfold Blk.stop at h1
      omega

/-- A block's tags are not the links of any block. -/
theorem Laid.tag_not_link (hl : Laid h lay) {F : Nat → Prop}
    (hF : ∀ x, F x → ∃ c, InHeap h.runs lay c ∧ c.addr = x) {b : Blk} (hb : InHeap h.runs lay b)
    (hw : b.IsTag w) : ¬IsLink F w := by
  rintro ⟨x, hx, hlink⟩
  obtain ⟨c, hc, rfl⟩ := hF x hx
  have hcs := hl.size_ge hc
  unfold Blk.IsTag at hw
  rcases hl.sep hb hc with rfl | h1 | h1 <;> unfold Blk.stop at * <;> omega

namespace FreeList

variable {h h' : Heap} {F F' : Nat → Prop} {b : Nat}

/-- A change of words that are no links. -/
theorem congr (hf : FreeList h F) (hmem : ∀ w, IsLink F w → h'.mem w = h.mem w)
    (hhead : h'.freeList = h.freeList) : FreeList h' F ∧ (Whole h F → Whole h' F) := by
  have hnext (x : Nat) (hx : F x) : h'.nextNode x = h.nextNode x :=
    congrArg ptr (hmem _ ⟨x, hx, .inl rfl⟩)
  have hprev (x : Nat) (hx : F x) : h'.prevNode x = h.prevNode x :=
    congrArg ptr (hmem _ ⟨x, hx, .inr rfl⟩)
  have hhead' : h'.headNode = h.headNode := congrArg ptr hhead
  refine ⟨⟨hf.nodes, ?_⟩, ?_⟩
  · rw [hhead']
    exact hf.linked.congr hnext hprev
  · intro hw
    unfold Whole
    rw [hhead']
    exact Complete.congr hw hf.linked hnext

theorem set_congr (hf : FreeList h F) (hF : ∀ x, F' x ↔ F x) : FreeList h F' :=
  ⟨hf.nodes.mono fun x hx => (hF x).mp hx, hf.linked.set_congr hF⟩

end FreeList

/-! ## Insertion and removal -/

namespace Heap

@[simp] theorem write_mem (h : Heap) (a v w : Nat) :
    (h.write a v).mem w = if w = a then v else h.mem w := by
  simp [write, Function.update_apply]

@[simp] theorem write_runs (h : Heap) (a v : Nat) : (h.write a v).runs = h.runs := rfl

@[simp] theorem write_freeList (h : Heap) (a v : Nat) : (h.write a v).freeList = h.freeList := rfl

@[simp] theorem write_hhdm (h : Heap) (a v : Nat) : (h.write a v).hhdm = h.hhdm := rfl

end Heap

theorem freeListInsert_mem (h : Heap) (b w : Nat) : (freeListInsert h b).mem w =
    if h.freeList ≠ 0 ∧ w = h.freeList + 24 then b
    else if w = b + 24 then 0 else if w = b + 16 then h.freeList else h.mem w := by
  unfold freeListInsert
  by_cases hhead : h.freeList = 0 <;> simp [hhead]

@[simp] theorem freeListInsert_runs (h : Heap) (b : Nat) : (freeListInsert h b).runs = h.runs := by
  unfold freeListInsert
  by_cases hhead : h.freeList = 0 <;> simp [hhead]

@[simp] theorem freeListInsert_hhdm (h : Heap) (b : Nat) : (freeListInsert h b).hhdm = h.hhdm := by
  unfold freeListInsert
  by_cases hhead : h.freeList = 0 <;> simp [hhead]

theorem freeListRemove_mem {b : Nat} (hprev : h.prev b ≠ b + 8) (w : Nat) :
    (freeListRemove h b).mem w =
      if w = b + 24 ∨ w = b + 16 then 0
      else if h.next b ≠ 0 ∧ w = h.next b + 24 then h.prev b
      else if h.prev b ≠ 0 ∧ w = h.prev b + 16 then h.next b else h.mem w := by
  unfold freeListRemove
  have hfirst (w : Nat) : (if h.prev b ≠ 0 then h.write (h.prev b + 16) (h.next b)
      else { h with freeList := h.next b }).mem w =
        if h.prev b ≠ 0 ∧ w = h.prev b + 16 then h.next b else h.mem w := by
    by_cases hp : h.prev b = 0 <;> simp [hp]
  generalize (if h.prev b ≠ 0 then h.write (h.prev b + 16) (h.next b)
    else { h with freeList := h.next b }) = h1 at hfirst ⊢
  -- the first write changes neither of the words that are read after it
  have hnext1 : h1.next b = h.next b := by
    rw [Heap.next, hfirst]
    split
    · rfl
    · rfl
  have hprev1 : h1.prev b = h.prev b := by
    rw [Heap.prev, hfirst, if_neg (by omega)]
    rfl
  simp only [hnext1, hprev1, Heap.write_mem]
  by_cases hn : h.next b = 0
  · simp only [hn, ne_eq, not_true, if_false, false_and, hfirst]
    split_ifs <;> first | rfl | omega
  · simp only [hn, ne_eq, not_false_eq_true, if_true, true_and, Heap.write_mem, hfirst]
    split_ifs <;> first | rfl | omega

theorem freeListRemove_freeList (h : Heap) (b : Nat) : (freeListRemove h b).freeList =
    if h.prev b ≠ 0 then h.freeList else h.next b := by
  unfold freeListRemove
  by_cases hp : h.prev b = 0 <;> simp only [hp] <;> split_ifs <;> simp_all

@[simp] theorem freeListRemove_runs (h : Heap) (b : Nat) : (freeListRemove h b).runs = h.runs := by
  unfold freeListRemove
  by_cases hp : h.prev b = 0 <;> simp only [hp] <;> split_ifs <;> simp_all

@[simp] theorem freeListRemove_hhdm (h : Heap) (b : Nat) : (freeListRemove h b).hhdm = h.hhdm := by
  unfold freeListRemove
  by_cases hp : h.prev b = 0 <;> simp only [hp] <;> split_ifs <;> simp_all

namespace FreeList

variable {h h' : Heap} {F : Nat → Prop} {b x : Nat}

section

variable (hf : FreeList h F)

include hf

theorem head_node (hhead : h.freeList ≠ 0) : F h.freeList :=
  (hf.linked.head_ok _ (ptr_of_ne hhead)).1

theorem next_node (hb : F b) (hnext : h.next b ≠ 0) : F (h.next b) :=
  (hf.linked.next_ok b _ hb (ptr_of_ne hnext)).1

theorem prev_node (hb : F b) (hprev : h.prev b ≠ 0) : F (h.prev b) :=
  (hf.linked.prev_ok b _ hb (ptr_of_ne hprev)).1

theorem inserted (hb : ¬F b) (hn : Nodes fun x => x = b ∨ F x) :
    Inserted h.nextNode h.prevNode (freeListInsert h b).nextNode (freeListInsert h b).prevNode
      h.headNode F b := by
  have hsep (x : Nat) (hx : F x) : x + 32 ≤ b ∨ b + 32 ≤ x := by
    rcases hn.sep x b (.inr hx) (.inl rfl) with rfl | hxb
    · exact absurd hx hb
    · exact hxb
  have hother (x : Nat) (hx : F x) (hne : h.freeList ≠ 0) :
      x = h.freeList ∨ x + 32 ≤ h.freeList ∨ h.freeList + 32 ≤ x :=
    hf.nodes.sep x _ hx (hf.head_node hne)
  have hself (hne : h.freeList ≠ 0) := hsep h.freeList (hf.head_node hne)
  refine ⟨?_, ?_, ?_, ?_, ?_⟩
  · refine congrArg ptr ?_
    rw [Heap.next, freeListInsert_mem, if_neg (by omega), if_neg (by omega), if_pos rfl]
  · refine ptr_eq_none.mpr ?_
    rw [Heap.prev, freeListInsert_mem, if_neg (by omega), if_pos rfl]
  · intro x hx
    have := hsep x hx
    have := hother x hx
    refine congrArg ptr ?_
    rw [Heap.next, freeListInsert_mem, if_neg (by omega), if_neg (by omega), if_neg (by omega)]
    rfl
  · intro x hx hxhead
    obtain ⟨rfl, hne⟩ := ptr_eq_some.mp hxhead
    refine ptr_eq_some.mpr ⟨?_, hn.pos b (.inl rfl)⟩
    rw [Heap.prev, freeListInsert_mem, if_pos ⟨hne, rfl⟩]
  · intro x hx hxhead
    have := hsep x hx
    have hne : ¬(h.freeList ≠ 0 ∧ x + 24 = h.freeList + 24) := by
      rintro ⟨hne, heq⟩
      exact hxhead (ptr_eq_some.mpr ⟨by omega, hf.nodes.pos x hx⟩)
    refine congrArg ptr ?_
    rw [Heap.prev, freeListInsert_mem, if_neg hne, if_neg (by omega), if_neg (by omega)]
    rfl

theorem prev_ne (hb : F b) : h.prev b ≠ b + 8 := by
  intro hp
  have := hf.nodes.sep b _ hb (hf.prev_node hb (by omega))
  unfold headerSize at this
  omega

theorem removed (hb : F b) :
    Removed h.nextNode h.prevNode (freeListRemove h b).nextNode (freeListRemove h b).prevNode
      h.headNode (freeListRemove h b).headNode F b := by
  have hmem := freeListRemove_mem (hf.prev_ne hb)
  have hnext (x : Nat) (hx : F x) (hne : h.next b ≠ 0) :
      x = h.next b ∨ x + 32 ≤ h.next b ∨ h.next b + 32 ≤ x :=
    hf.nodes.sep x _ hx (hf.next_node hb hne)
  have hprev (x : Nat) (hx : F x) (hne : h.prev b ≠ 0) :
      x = h.prev b ∨ x + 32 ≤ h.prev b ∨ h.prev b + 32 ≤ x :=
    hf.nodes.sep x _ hx (hf.prev_node hb hne)
  have hself (x : Nat) (hx : F x) (hxb : x ≠ b) : x + 32 ≤ b ∨ b + 32 ≤ x :=
    (hf.nodes.sep x b hx hb).resolve_left hxb
  refine ⟨?_, ?_, ?_, ?_, ?_, ?_, ?_, ?_⟩
  · refine ptr_eq_none.mpr ?_
    rw [Heap.next, hmem, if_pos (.inr rfl)]
  · refine ptr_eq_none.mpr ?_
    rw [Heap.prev, hmem, if_pos (.inl rfl)]
  · intro x hx hxb hpx
    obtain ⟨rfl, hne⟩ := ptr_eq_some.mp hpx
    have := hself _ hx hxb
    have := hnext _ hx
    refine congrArg ptr ?_
    rw [Heap.next, hmem, if_neg (by omega), if_neg (by omega), if_pos ⟨hne, rfl⟩]
  · intro x hx hxb hpx
    have := hself _ hx hxb
    have := hnext _ hx
    have hne : ¬(h.prev b ≠ 0 ∧ x + 16 = h.prev b + 16) := by
      rintro ⟨hne, heq⟩
      exact hpx (ptr_eq_some.mpr ⟨by omega, hf.nodes.pos x hx⟩)
    refine congrArg ptr ?_
    rw [Heap.next, hmem, if_neg (by omega), if_neg (by omega), if_neg hne]
    rfl
  · intro x hx hxb hnx
    obtain ⟨rfl, hne⟩ := ptr_eq_some.mp hnx
    have := hself _ hx hxb
    refine congrArg ptr ?_
    rw [Heap.prev, hmem, if_neg (by omega), if_pos ⟨hne, rfl⟩]
  · intro x hx hxb hnx
    have := hself _ hx hxb
    have := hprev _ hx
    have hne : ¬(h.next b ≠ 0 ∧ x + 24 = h.next b + 24) := by
      rintro ⟨hne, heq⟩
      exact hnx (ptr_eq_some.mpr ⟨by omega, hf.nodes.pos x hx⟩)
    refine congrArg ptr ?_
    rw [Heap.prev, hmem, if_neg (by omega), if_neg hne, if_neg (by omega)]
    rfl
  · intro hp
    refine congrArg ptr ?_
    rw [freeListRemove_freeList, if_neg (by simpa using ptr_eq_none.mp hp)]
  · intro hp
    refine congrArg ptr ?_
    rw [freeListRemove_freeList, if_pos fun h0 => hp (ptr_eq_none.mpr h0)]

theorem insert (hb : ¬F b) (hn : Nodes fun x => x = b ∨ F x) :
    FreeList (freeListInsert h b) (fun x => x = b ∨ F x) ∧
      (Whole h F → Whole (freeListInsert h b) (fun x => x = b ∨ F x)) := by
  have hhead : (freeListInsert h b).headNode = some b := ptr_of_ne (hn.pos b (.inl rfl))
  refine ⟨⟨hn, ?_⟩, ?_⟩
  · rw [hhead]
    exact hf.linked.insert hb (hf.inserted hb hn)
  · intro hw
    unfold Whole
    rw [hhead]
    exact Complete.insert hw hf.linked (hf.inserted hb hn)

theorem insert_mem (hw : ¬IsLink (fun x => x = b ∨ F x) w) :
    (freeListInsert h b).mem w = h.mem w := by
  rw [freeListInsert_mem, if_neg, if_neg, if_neg]
  · rintro rfl
    exact hw ⟨b, .inl rfl, .inl rfl⟩
  · rintro rfl
    exact hw ⟨b, .inl rfl, .inr rfl⟩
  · rintro ⟨hne, rfl⟩
    exact hw ⟨h.freeList, .inr (hf.head_node hne), .inr rfl⟩

/-- After a removal the node is alone, and it may stay in the set or leave it. -/
theorem remove (hb : F b) :
    FreeList (freeListRemove h b) F ∧ FreeList (freeListRemove h b) (fun x => x ≠ b ∧ F x) ∧
      (Whole h F → Whole (freeListRemove h b) (fun x => x ≠ b ∧ F x)) := by
  have hr := hf.removed hb
  obtain ⟨hlinked, hhead⟩ := hf.linked.remove hb hr
  refine ⟨⟨hf.nodes, hlinked⟩, ⟨hf.nodes.mono fun x hx => hx.2, ?_⟩, ?_⟩
  · exact hlinked.drop hr.next_self hr.prev_self hhead
  · exact fun hw => Complete.remove hw hf.linked hb hr

theorem remove_mem (hb : F b) (hw : ¬IsLink F w) : (freeListRemove h b).mem w = h.mem w := by
  rw [freeListRemove_mem (hf.prev_ne hb), if_neg, if_neg, if_neg]
  · rintro ⟨hne, rfl⟩
    exact hw ⟨h.prev b, hf.prev_node hb hne, .inl rfl⟩
  · rintro ⟨hne, rfl⟩
    exact hw ⟨h.next b, hf.next_node hb hne, .inr rfl⟩
  · rintro (rfl | rfl)
    · exact hw ⟨b, hb, .inr rfl⟩
    · exact hw ⟨b, hb, .inl rfl⟩

end

end FreeList

end Crius.Mm
