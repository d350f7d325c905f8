import Crius.Mm.Pte

/-!
# The physical page allocator

`mm/pmm.c`: a bitmap and a count of references for each page of a
window of `MAX_PAGES` pages that starts at `pages_base`. The specifications below speak of
page addresses in that window, so that callers need no indices.
-/
namespace Crius.Mm

open Function List BitVec

def pageSize : Nat := 4096
def maxPages : Nat := 1048576

/-- The statics of `pmm.c`; `page_refs[]` has entries of one byte. -/
structure Pmm where
  pagesBase : Addr
  bitmap : Nat → Bool
  pageRefs : Nat → Nat
  pagesFree : Nat
  lastScan : Nat

namespace Pmm

def index (p : Pmm) (phys : Addr) : Nat := (phys - p.pagesBase).toNat / pageSize

def address (p : Pmm) (idx : Nat) : Addr := p.pagesBase + BitVec.ofNat 64 (idx * pageSize)

/-- The two loops of `pmm_alloc_page`: from `last_scan` to the end, then from the start. -/
def scan (p : Pmm) : Option Nat :=
  ((List.range' p.lastScan (maxPages - p.lastScan)).find? fun i => !p.bitmap i).or
    ((List.range p.lastScan).find? fun i => !p.bitmap i)

/-- The page at `i` is handed out. -/
def take (p : Pmm) (i : Nat) : Pmm where
  pagesBase := p.pagesBase
  bitmap := Function.update p.bitmap i true
  pageRefs := Function.update p.pageRefs i 1
  pagesFree := p.pagesFree - 1
  lastScan := i + 1

/-- The page at `i` is free again. -/
def drop (p : Pmm) (i : Nat) : Pmm where
  pagesBase := p.pagesBase
  bitmap := Function.update p.bitmap i false
  pageRefs := Function.update p.pageRefs i 0
  pagesFree := p.pagesFree + 1
  lastScan := if i < p.lastScan then i else p.lastScan

def setRefs (p : Pmm) (i n : Nat) : Pmm :=
  { p with pageRefs := Function.update p.pageRefs i n }

end Pmm

def pmmAllocPage (p : Pmm) : Addr × Pmm :=
  match p.scan with
  | some i => (p.address i, p.take i)
  | none => (0, p)

def pmmFreePage (p : Pmm) (phys : Addr) : Pmm :=
  let idx := p.index phys
  if maxPages ≤ idx then p
  -- a double free is reported on the serial line and otherwise ignored
  else if p.bitmap idx = false then p
  else if 1 < p.pageRefs idx then p.setRefs idx (p.pageRefs idx - 1)
  else p.drop idx

def pmmIncref (p : Pmm) (phys : Addr) : Pmm :=
  let idx := p.index phys
  if maxPages ≤ idx then p
  else if p.pageRefs idx < 255 then p.setRefs idx (p.pageRefs idx + 1)
  else p

def pmmGetRefcount (p : Pmm) (phys : Addr) : Nat :=
  let idx := p.index phys
  if maxPages ≤ idx then 0 else p.pageRefs idx

/-- The loop of `pmm_alloc_pages`, with its counters `run` and `start`. -/
def scanRun (bitmap : Nat → Bool) (count : Nat) : List Nat → Nat → Nat → Option Nat
  | [], _, _ => none
  | i :: is, run, start =>
    if bitmap i = false then
      let start := if run = 0 then i else start
      if count ≤ run + 1 then some start else scanRun bitmap count is (run + 1) start
    else scanRun bitmap count is 0 start

def pmmAllocPages (p : Pmm) (count : Nat) : Addr × Pmm :=
  if count = 0 then (0, p)
  else if count = 1 then pmmAllocPage p
  else
    match scanRun p.bitmap count (List.range maxPages) 0 0 with
    | none => (0, p)
    | some start =>
      (p.address start, { (List.range' start count).foldl Pmm.take p with lastScan := start + count })

def pmmFreePages (p : Pmm) (phys : Addr) (count : Nat) : Pmm :=
  (List.range count).foldl (fun p i => pmmFreePage p (phys + BitVec.ofNat 64 (i * pageSize))) p

/-- An entry of the memory map: a range of the physical address space, which ends far enough
below `2^64` for the sums of `pmm_init` not to wrap. -/
structure MemmapEntry where
  base : Nat
  length : Nat
  usable : Bool
  fits : base + length + pageSize ≤ 2 ^ 64

/-- The first page boundary of an entry. -/
def MemmapEntry.start (e : MemmapEntry) : Nat := (e.base + pageSize - 1) / pageSize * pageSize

/-- The last page boundary of an entry. -/
def MemmapEntry.stop (e : MemmapEntry) : Nat := (e.base + e.length) / pageSize * pageSize

/-- The addresses that the inner loop of `pmm_init` visits. -/
def MemmapEntry.pages (e : MemmapEntry) : List Nat :=
  (List.range ((e.stop - e.start) / pageSize)).map fun k => e.start + k * pageSize

/-- A page of a usable entry, when the window reaches it. -/
def Pmm.addPage (p : Pmm) (addr : Nat) : Pmm :=
  let idx := p.index (BitVec.ofNat 64 addr)
  if idx < maxPages then
    { p with bitmap := Function.update p.bitmap idx false, pagesFree := p.pagesFree + 1 }
  else p

/-- The allocator without a free page. -/
def Pmm.blank (pagesBase : Addr) : Pmm where
  pagesBase := pagesBase
  bitmap := fun _ => true
  pageRefs := fun _ => 0
  pagesFree := 0
  lastScan := 0

def pmmInit (memmap : List MemmapEntry) : Pmm :=
  let usable := memmap.filter (·.usable)
  match (usable.map MemmapEntry.start).min? with
  | none => .blank 0xFFFFFFFFFFFFFFFF
  | some lowest =>
    (usable.flatMap MemmapEntry.pages).foldl Pmm.addPage (.blank (BitVec.ofNat 64 lowest))

namespace Pmm

/-- What `pmm_init` sets up and every call keeps: the window starts above address 0 at a
page boundary and lies within the physical address space. -/
structure Ok (p : Pmm) : Prop where
  base_pos : 0 < p.pagesBase.toNat
  base_aligned : p.pagesBase.toNat % pageSize = 0
  base_bound : p.pagesBase.toNat + maxPages * pageSize ≤ 2 ^ 52
  scan_le : p.lastScan ≤ maxPages
  refs_le : ∀ i, p.pageRefs i ≤ 255

/-- The address of a page of the window. -/
def Managed (p : Pmm) (x : Addr) : Prop := ∃ i < maxPages, x = p.address i

/-- The bitmap bit of a page. -/
def used (p : Pmm) (x : Addr) : Bool := p.bitmap (p.index x)

/-- The reference count of a page. -/
def count (p : Pmm) (x : Addr) : Nat := p.pageRefs (p.index x)

/-- The page has been handed out. -/
def InUse (p : Pmm) (x : Addr) : Prop := p.Managed x ∧ p.used x = true

end Pmm

theorem isFrame_of_toNat {x : Addr} (halign : x.toNat % pageSize = 0) (hbound : x.toNat < 2 ^ 63) :
    IsFrame x := by
  refine eq_of_getLsbD_eq fun i hi => ?_
  rw [getLsbD_leafAddr x hi]
  by_cases hcut : 12 ≤ i ∧ i ≠ 63
  · simp [hcut]
  · have hbit : x.toNat.testBit i = false := by
      by_cases h12 : 12 ≤ i
      · obtain rfl : i = 63 := by omega
        exact Nat.testBit_lt_two_pow hbound
      · have hmod := Nat.testBit_mod_two_pow x.toNat 12 i
        rw [show 2 ^ 12 = pageSize from rfl, halign] at hmod
        simpa [show i < 12 by omega] using hmod.symm
    rw [getLsbD, hbit, Bool.false_and]

namespace Pmm

variable {p p' : Pmm} {x y : Addr} {i : Nat}

theorem index_address (hi : i < maxPages) : p.index (p.address i) = i := by
  have hoff : (p.address i - p.pagesBase).toNat = i * pageSize := by
    unfold maxPages at hi
    unfold address pageSize
    rw [BitVec.add_comm, BitVec.add_sub_cancel, BitVec.toNat_ofNat]
    omega
  rw [index, hoff, Nat.mul_div_cancel i (by decide)]

theorem toNat_address (ok : p.Ok) (hi : i < maxPages) :
    (p.address i).toNat = p.pagesBase.toNat + i * pageSize := by
  have hbound := ok.base_bound
  unfold maxPages pageSize at *
  rw [address, toNat_add, toNat_ofNat]
  unfold pageSize
  omega

theorem Managed.index_lt (hx : p.Managed x) : p.index x < maxPages := by
  obtain ⟨i, hi, rfl⟩ := hx
  rw [index_address hi]
  exact hi

theorem Managed.address_index (hx : p.Managed x) : p.address (p.index x) = x := by
  obtain ⟨i, hi, rfl⟩ := hx
  rw [index_address hi]

theorem Managed.index_inj (hx : p.Managed x) (hy : p.Managed y) :
    p.index x = p.index y ↔ x = y := by
  constructor
  · intro h
    rw [← hx.address_index, h, hy.address_index]
  · rintro rfl
    rfl

theorem Managed.isFrame (ok : p.Ok) (hx : p.Managed x) : IsFrame x := by
  obtain ⟨i, hi, rfl⟩ := hx
  have haddr := toNat_address ok hi
  have hbound := ok.base_bound
  have halign := ok.base_aligned
  unfold maxPages pageSize at *
  refine isFrame_of_toNat ?_ ?_
  · unfold pageSize
    omega
  · omega

theorem Managed.ne_zero (ok : p.Ok) (hx : p.Managed x) : x ≠ 0 := by
  obtain ⟨i, hi, rfl⟩ := hx
  intro h0
  have haddr := toNat_address ok hi
  have hpos := ok.base_pos
  rw [h0, show (0 : Addr).toNat = 0 from rfl] at haddr
  omega

/-- A change of one bit of the bitmap, by address. -/
theorem used_update {b : Bool} (hx : p.Managed x) (hy : p.Managed y)
    (hbase : p'.pagesBase = p.pagesBase) (hmap : p'.bitmap = update p.bitmap (p.index x) b) :
    p'.used y = if y = x then b else p.used y := by
  have hidx : p'.index y = p.index y := by rw [index, index, hbase]
  rw [used, hidx, hmap, update_apply]
  simp only [hy.index_inj hx]
  rfl

/-- A change of one count, by address. -/
theorem count_update {n : Nat} (hx : p.Managed x) (hy : p.Managed y)
    (hbase : p'.pagesBase = p.pagesBase) (hrefs : p'.pageRefs = update p.pageRefs (p.index x) n) :
    p'.count y = if y = x then n else p.count y := by
  have hidx : p'.index y = p.index y := by rw [index, index, hbase]
  rw [count, hidx, hrefs, update_apply]
  simp only [hy.index_inj hx]
  rfl

/-! ## The calls, by address -/

theorem scan_eq_some {p : Pmm} {i : Nat} (hscan : p.lastScan ≤ maxPages)
    (h : p.scan = some i) : i < maxPages ∧ p.bitmap i = false := by
  rw [scan, Option.or_eq_some_iff] at h
  rcases h with h | ⟨-, h⟩
  · have hmem := mem_of_find?_eq_some h
    have hbit := find?_some h
    rw [mem_range'_1] at hmem
    exact ⟨by omega, by simpa using hbit⟩
  · have hmem := mem_of_find?_eq_some h
    have hbit := find?_some h
    rw [mem_range] at hmem
    exact ⟨by omega, by simpa using hbit⟩

theorem scan_eq_none {p : Pmm} (h : p.scan = none) (hi : i < maxPages) : p.bitmap i = true := by
  rw [scan, Option.or_eq_none_iff] at h
  obtain ⟨hhigh, hlow⟩ := h
  rw [find?_eq_none] at hhigh hlow
  by_cases hcut : i < p.lastScan
  · simpa using hlow i (mem_range.mpr hcut)
  · simpa using hhigh i (mem_range'_1.mpr (by omega))

/-- A page that was free is handed out with one reference. -/
structure Taken (p : Pmm) (x : Addr) (p' : Pmm) : Prop where
  ok : p'.Ok
  base : p'.pagesBase = p.pagesBase
  managed : p.Managed x
  free : p.used x = false
  used : ∀ y, p.Managed y → (p'.used y = true ↔ p.used y = true ∨ y = x)
  count_self : p'.count x = 1
  count : ∀ y, p.Managed y → y ≠ x → p'.count y = p.count y

theorem Taken.ne (h : p.Taken x p') (hy : p.InUse y) : y ≠ x := by
  rintro rfl
  have hfree := h.free
  rw [hy.2] at hfree
  cases hfree

/-- A page that the allocator will not hand out. -/
def NotFree (p : Pmm) (x : Addr) : Prop := p.Managed x → p.used x = true

theorem InUse.notFree (h : p.InUse x) : p.NotFree x := fun _ => h.2

theorem Taken.ne_notFree (h : p.Taken x p') (hy : p.NotFree y) : y ≠ x := by
  rintro rfl
  exact h.ne ⟨h.managed, hy h.managed⟩ rfl

theorem Taken.notFree (h : p.Taken x p') (hy : p.NotFree y) : p'.NotFree y := by
  intro hm
  have hm' : p.Managed y := by
    simp only [Managed, address, h.base] at hm
    exact hm
  exact (h.used y hm').mpr (.inl (hy hm'))

theorem refs_update_le {n : Nat} (ok : p.Ok) (hn : n ≤ 255) (i j : Nat) :
    update p.pageRefs i n j ≤ 255 := by
  rw [update_apply]
  split
  · exact hn
  · exact ok.refs_le j

theorem pmmAllocPage_spec (ok : p.Ok) (h : pmmAllocPage p = (x, p')) :
    (x = 0 ∧ p' = p ∧ ∀ y, p.Managed y → p.used y = true) ∨ (x ≠ 0 ∧ p.Taken x p') := by
  unfold pmmAllocPage at h
  split at h
  · next i hi =>
    obtain ⟨hlt, hfree⟩ := scan_eq_some ok.scan_le hi
    cases h
    have hm : p.Managed (p.address i) := ⟨i, hlt, rfl⟩
    have hidx : p.index (p.address i) = i := index_address hlt
    have hmap : (p.take i).bitmap = update p.bitmap (p.index (p.address i)) true := by
      rw [hidx]
      rfl
    have hrefs : (p.take i).pageRefs = update p.pageRefs (p.index (p.address i)) 1 := by
      rw [hidx]
      rfl
    have hused (y : Addr) (hy : p.Managed y) : (p.take i).used y = _ :=
      used_update hm hy rfl hmap
    have hcount (y : Addr) (hy : p.Managed y) : (p.take i).count y = _ :=
      count_update hm hy rfl hrefs
    have hok : (p.take i).Ok :=
      ⟨ok.base_pos, ok.base_aligned, ok.base_bound, hlt, refs_update_le ok (by decide) i⟩
    refine .inr ⟨hm.ne_zero ok, hok, rfl, hm, ?_, fun y hy => ?_, ?_, fun y hy hne => ?_⟩
    · rw [used, hidx, hfree]
    · rw [hused y hy]
      by_cases hyx : y = p.address i
      · simp [hyx]
      · simp [hyx]
    · rw [hcount _ hm, if_pos rfl]
    · rw [hcount y hy, if_neg hne]
  · next hnone =>
    cases h
    exact .inl ⟨rfl, rfl, fun y hy => scan_eq_none hnone (hy.index_lt)⟩

section Frames

variable (ok : p.Ok) (hx : p.Managed x)

include ok hx

/-- `pmm_free_page` of a page in use: one reference less, and with the last one the page is
free. -/
theorem pmmFreePage_spec (hused : p.used x = true) :
    (pmmFreePage p x).Ok ∧ (pmmFreePage p x).pagesBase = p.pagesBase ∧
      (∀ y, p.Managed y → (pmmFreePage p x).used y =
        if y = x then decide (1 < p.count x) else p.used y) ∧
      ∀ y, p.Managed y → (pmmFreePage p x).count y =
        if y = x then p.count x - 1 else p.count y := by
  have hlt : ¬maxPages ≤ p.index x := by
    have := hx.index_lt
    omega
  have hbit : ¬p.bitmap (p.index x) = false := by
    rw [show p.bitmap (p.index x) = true from hused]
    decide
  unfold pmmFreePage
  simp only [if_neg hlt, if_neg hbit]
  by_cases hmany : 1 < p.pageRefs (p.index x)
  · have hle := ok.refs_le (p.index x)
    rw [if_pos hmany]
    refine ⟨⟨ok.base_pos, ok.base_aligned, ok.base_bound, ok.scan_le,
      refs_update_le ok (by omega) _⟩, rfl, fun y hy => ?_, fun y hy => count_update hx hy rfl rfl⟩
    rw [show decide (1 < p.count x) = true from decide_eq_true hmany]
    split_ifs with hyx
    · rw [hyx]
      exact hused
    · rfl
  · rw [if_neg hmany]
    refine ⟨⟨ok.base_pos, ok.base_aligned, ok.base_bound, ?_, refs_update_le ok (by decide) _⟩,
      rfl, fun y hy => ?_, fun y hy => ?_⟩
    · have hscan := ok.scan_le
      show (if p.index x < p.lastScan then p.index x else p.lastScan) ≤ maxPages
      split <;> omega
    · rw [show decide (1 < p.count x) = false from decide_eq_false hmany]
      exact used_update hx hy rfl rfl
    · rw [show p.count x - 1 = 0 by unfold count; omega]
      exact count_update hx hy rfl rfl

/-- `pmm_incref`, which stops counting at 255. -/
theorem pmmIncref_spec :
    (pmmIncref p x).Ok ∧ (pmmIncref p x).pagesBase = p.pagesBase ∧
      (∀ y, (pmmIncref p x).used y = p.used y) ∧
      ∀ y, p.Managed y → (pmmIncref p x).count y =
        if y = x then min 255 (p.count x + 1) else p.count y := by
  have hlt : ¬maxPages ≤ p.index x := by
    have := hx.index_lt
    omega
  have hle := ok.refs_le (p.index x)
  unfold pmmIncref
  simp only [if_neg hlt]
  by_cases hroom : p.pageRefs (p.index x) < 255
  · rw [if_pos hroom, show min 255 (p.count x + 1) = p.pageRefs (p.index x) + 1 by
      unfold count; omega]
    exact ⟨⟨ok.base_pos, ok.base_aligned, ok.base_bound, ok.scan_le,
      refs_update_le ok (by omega) _⟩, rfl, fun y => rfl, fun y hy => count_update hx hy rfl rfl⟩
  · rw [if_neg hroom]
    refine ⟨ok, rfl, fun y => rfl, fun y hy => ?_⟩
    split_ifs with hyx
    · rw [hyx]
      unfold count
      omega
    · rfl

omit ok in
theorem pmmGetRefcount_eq : pmmGetRefcount p x = p.count x := by
  have hlt : ¬maxPages ≤ p.index x := by
    have := hx.index_lt
    omega
  simp only [pmmGetRefcount, if_neg hlt]
  rfl

end Frames

end Pmm

end Crius.Mm
