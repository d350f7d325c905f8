import Mathlib.Tactic

/-!
# Page-table words

The bits of a page-table entry from `include/mm/vmm.h`, the masks that `mm/vmm.c` takes
addresses and flags with, and the words that it builds. The facts about them are about
single bits.
-/
namespace Crius.Mm

open BitVec

/-- A 64-bit word of physical memory. -/
abbrev Word := BitVec 64

/-- A physical address. -/
abbrev Addr := BitVec 64

def pagePresent : Word := 0x1
def pageWritable : Word := 0x2
def pageUser : Word := 0x4
def pageCow : Word := 0x200
def pageNx : Word := 0x8000000000000000

/-- `0xFFFUL` -/
def offsetMask : Word := 0xFFF

def present (e : Word) : Bool := e &&& pagePresent != 0
def writable (e : Word) : Bool := e &&& pageWritable != 0
def isCow (e : Word) : Bool := e &&& pageCow != 0

/-- `e & ~0xFFFUL`, the table that an entry of an upper level points to. -/
def tableAddr (e : Word) : Addr := e &&& ~~~offsetMask

/-- `e & ~(0xFFFUL | PAGE_NX)`, the frame that a leaf entry points to. -/
def leafAddr (e : Word) : Addr := e &&& ~~~(offsetMask ||| pageNx)

/-- `e & (0xFFFUL | PAGE_NX)` -/
def leafFlags (e : Word) : Word := e &&& (offsetMask ||| pageNx)

/-- The leaf that `copy_pt` stores on both sides. -/
def cowEntry (e : Word) : Word := leafAddr e ||| (leafFlags e &&& ~~~pageWritable) ||| pageCow

/-- The leaf that `vmm_handle_cow_fault` stores. -/
def ownEntry (phys : Addr) (e : Word) : Word :=
  phys ||| (leafFlags e &&& ~~~pageCow) ||| pageWritable

/-- The entry with which `vmm_map_page` links a new table. -/
def tableEntry (table : Addr) (flags : Word) : Word :=
  table ||| pagePresent ||| pageWritable ||| (flags &&& pageUser)

/-- The entry with which the copy loops link the copy of the table under `e`. -/
def linkEntry (table : Addr) (e : Word) : Word := table ||| (e &&& offsetMask)

/-- The leaf that `vmm_map_page` stores. -/
def mapEntry (phys : Addr) (flags : Word) : Word := leafAddr phys ||| flags

/-- An address that survives the masks: page-aligned, and with a clear top bit. -/
def IsFrame (x : Addr) : Prop := leafAddr x = x

instance (x : Addr) : Decidable (IsFrame x) := inferInstanceAs (Decidable (_ = _))

/-! ## Single bits -/

theorem getLsbD_offsetMask (i : Nat) : offsetMask.getLsbD i = decide (i < 12) := by
  by_cases hi : i < 64
  · have hall : ∀ j : Fin 64, offsetMask.getLsbD j = decide (j.val < 12) := by decide
    exact hall ⟨i, hi⟩
  · rw [getLsbD_of_ge _ _ (by omega), decide_eq_false (by omega)]

theorem getLsbD_twoPow {w : Word} {b : Nat} (hb : b < 64) (h : w = BitVec.twoPow 64 b) (i : Nat) :
    w.getLsbD i = decide (i = b) := by
  rw [h, BitVec.getLsbD_twoPow]
  grind

theorem getLsbD_pagePresent (i : Nat) : pagePresent.getLsbD i = decide (i = 0) :=
  getLsbD_twoPow (by decide) (by decide) i

theorem getLsbD_pageWritable (i : Nat) : pageWritable.getLsbD i = decide (i = 1) :=
  getLsbD_twoPow (by decide) (by decide) i

theorem getLsbD_pageUser (i : Nat) : pageUser.getLsbD i = decide (i = 2) :=
  getLsbD_twoPow (by decide) (by decide) i

theorem getLsbD_pageCow (i : Nat) : pageCow.getLsbD i = decide (i = 9) :=
  getLsbD_twoPow (by decide) (by decide) i

theorem getLsbD_pageNx (i : Nat) : pageNx.getLsbD i = decide (i = 63) :=
  getLsbD_twoPow (by decide) (by decide) i

theorem and_bit_ne_zero {e w : Word} {b : Nat} (hw : ∀ i, w.getLsbD i = decide (i = b)) :
    (e &&& w != 0) = e.getLsbD b := by
  cases he : e.getLsbD b with
  | true =>
    have hne : e &&& w ≠ 0 := by
      intro h0
      have hbit := congrArg (getLsbD · b) h0
      simp [he, hw] at hbit
    simpa using hne
  | false =>
    have h0 : e &&& w = 0 := by
      refine eq_of_getLsbD_eq fun i hi => ?_
      rw [getLsbD_and, hw]
      by_cases hib : i = b
      · simp [hib, he]
      · simp [hib]
    simp [h0]

variable (e : Word) {i : Nat}

theorem present_eq : present e = e.getLsbD 0 :=
  and_bit_ne_zero getLsbD_pagePresent

theorem writable_eq : writable e = e.getLsbD 1 :=
  and_bit_ne_zero getLsbD_pageWritable

theorem isCow_eq : isCow e = e.getLsbD 9 :=
  and_bit_ne_zero getLsbD_pageCow

theorem getLsbD_tableAddr (hi : i < 64) :
    (tableAddr e).getLsbD i = (e.getLsbD i && decide (12 ≤ i)) := by
  simp only [tableAddr, getLsbD_and, getLsbD_not, getLsbD_offsetMask, hi]
  grind

theorem getLsbD_leafAddr (hi : i < 64) :
    (leafAddr e).getLsbD i = (e.getLsbD i && decide (12 ≤ i ∧ i ≠ 63)) := by
  simp only [leafAddr, getLsbD_and, getLsbD_or, getLsbD_not,
    getLsbD_offsetMask, getLsbD_pageNx, hi]
  grind

theorem getLsbD_leafFlags (i : Nat) :
    (leafFlags e).getLsbD i = (e.getLsbD i && decide (i < 12 ∨ i = 63)) := by
  simp only [leafFlags, getLsbD_and, getLsbD_or, getLsbD_offsetMask,
    getLsbD_pageNx]
  grind

/-- The bits that the masks remove are clear in a frame address. -/
theorem IsFrame.getLsbD {x : Addr} (hx : IsFrame x) (hi : i < 12 ∨ 63 ≤ i) :
    x.getLsbD i = false := by
  by_cases h64 : i < 64
  · rw [← hx, getLsbD_leafAddr x h64]
    grind
  · exact getLsbD_of_ge _ _ (by omega)

/-- A table address is the start of the page of the word. -/
theorem tableAddr_toNat : (tableAddr e).toNat = e.toNat - e.toNat % 4096 := by
  have hshift : tableAddr e = (e >>> 12) <<< 12 := by
    refine eq_of_getLsbD_eq fun i hi => ?_
    rw [getLsbD_tableAddr e hi, getLsbD_shiftLeft, getLsbD_ushiftRight]
    grind
  rw [hshift, toNat_shiftLeft, toNat_ushiftRight, Nat.shiftRight_eq_div_pow,
    Nat.shiftLeft_eq]
  omega

theorem isFrame_leafAddr : IsFrame (leafAddr e) := by
  refine eq_of_getLsbD_eq fun i hi => ?_
  simp only [getLsbD_leafAddr _ hi]
  grind

theorem IsFrame.tableAddr {x : Addr} (hx : IsFrame x) : tableAddr x = x := by
  refine eq_of_getLsbD_eq fun i hi => ?_
  rw [getLsbD_tableAddr x hi]
  by_cases h12 : i < 12
  · rw [hx.getLsbD (Or.inl h12), Bool.false_and]
  · grind

/-! ## The words that the code builds -/

@[simp] theorem present_cowEntry : present (cowEntry e) = present e := by
  simp [present_eq, cowEntry, getLsbD_leafAddr, getLsbD_leafFlags, getLsbD_pageWritable,
    getLsbD_pageCow, -getLsbD_eq_getElem]

@[simp] theorem leafAddr_cowEntry : leafAddr (cowEntry e) = leafAddr e := by
  refine eq_of_getLsbD_eq fun i hi => ?_
  simp only [cowEntry, getLsbD_leafAddr _ hi, getLsbD_or, getLsbD_and,
    getLsbD_not, getLsbD_leafFlags, getLsbD_pageCow]
  grind

@[simp] theorem tableAddr_cowEntry : tableAddr (cowEntry e) = tableAddr e := by
  refine eq_of_getLsbD_eq fun i hi => ?_
  simp only [cowEntry, getLsbD_leafAddr _ hi, getLsbD_tableAddr _ hi, getLsbD_or,
    getLsbD_and, getLsbD_not, getLsbD_leafFlags, getLsbD_pageWritable,
    getLsbD_pageCow]
  grind

@[simp] theorem writable_cowEntry : writable (cowEntry e) = false := by
  simp [writable_eq, cowEntry, getLsbD_leafAddr, getLsbD_pageWritable, getLsbD_pageCow,
    -getLsbD_eq_getElem]

@[simp] theorem isCow_cowEntry : isCow (cowEntry e) = true := by
  simp [isCow_eq, cowEntry, getLsbD_pageCow, -getLsbD_eq_getElem]

theorem cowEntry_cowEntry : cowEntry (cowEntry e) = cowEntry e := by
  refine eq_of_getLsbD_eq fun i hi => ?_
  simp only [cowEntry, getLsbD_leafAddr _ hi, getLsbD_or, getLsbD_and,
    getLsbD_not, getLsbD_leafFlags, getLsbD_pageWritable, getLsbD_pageCow]
  grind

@[simp] theorem writable_ownEntry (x : Addr) (e : Word) : writable (ownEntry x e) = true := by
  simp [writable_eq, ownEntry, getLsbD_pageWritable, -getLsbD_eq_getElem]

@[simp] theorem present_tableEntry (x : Addr) (flags : Word) :
    present (tableEntry x flags) = true := by
  simp [present_eq, tableEntry, getLsbD_pagePresent, -getLsbD_eq_getElem]

@[simp] theorem present_mapEntry (x : Addr) (flags : Word) :
    present (mapEntry x flags) = present flags := by
  simp [present_eq, mapEntry, getLsbD_leafAddr, -getLsbD_eq_getElem]

section Frame

variable {x : Addr} (hx : IsFrame x)

include hx

theorem present_ownEntry (e : Word) : present (ownEntry x e) = present e := by
  simp [present_eq, ownEntry, hx.getLsbD, getLsbD_leafFlags, getLsbD_pageWritable,
    getLsbD_pageCow, -getLsbD_eq_getElem]

theorem leafAddr_ownEntry (e : Word) : leafAddr (ownEntry x e) = x := by
  refine eq_of_getLsbD_eq fun i hi => ?_
  have hbit := hx.getLsbD (i := i)
  simp only [ownEntry, getLsbD_leafAddr _ hi, getLsbD_or, getLsbD_and,
    getLsbD_not, getLsbD_leafFlags, getLsbD_pageWritable]
  grind

theorem tableAddr_tableEntry (flags : Word) : tableAddr (tableEntry x flags) = x := by
  refine eq_of_getLsbD_eq fun i hi => ?_
  have hbit := hx.getLsbD (i := i)
  simp only [tableEntry, getLsbD_tableAddr _ hi, getLsbD_or, getLsbD_and,
    getLsbD_pagePresent, getLsbD_pageWritable, getLsbD_pageUser]
  grind

theorem present_linkEntry (e : Word) : present (linkEntry x e) = present e := by
  simp [present_eq, linkEntry, hx.getLsbD, getLsbD_offsetMask, -getLsbD_eq_getElem]

theorem tableAddr_linkEntry (e : Word) : tableAddr (linkEntry x e) = x := by
  refine eq_of_getLsbD_eq fun i hi => ?_
  have hbit := hx.getLsbD (i := i)
  simp only [linkEntry, getLsbD_tableAddr _ hi, getLsbD_or, getLsbD_and,
    getLsbD_offsetMask]
  grind

theorem leafAddr_mapEntry {flags : Word} (hf : leafAddr flags = 0) :
    leafAddr (mapEntry x flags) = x := by
  refine eq_of_getLsbD_eq fun i hi => ?_
  have hbit := hx.getLsbD (i := i)
  have hflag := congrArg (getLsbD · i) hf
  simp only [getLsbD_leafAddr _ hi] at hflag
  simp only [mapEntry, getLsbD_leafAddr _ hi, getLsbD_or]
  grind

end Frame

end Crius.Mm
