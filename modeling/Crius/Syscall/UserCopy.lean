import Crius.Process.ElfConfined

/-!
# Checks of user pointers

`syscall/usercopy.c`: a range of user memory is accepted if it lies below `USER_ADDR_MAX` and
each of its pages is mapped with the flag that is asked for. A fork takes the writable flag
from every page, so afterwards no range is accepted for writing until it has been touched.
-/
namespace Crius.Syscall

open Lib Mm Elf Option List

def pageMask : Addr := ~~~0xFFF

/-- The bounds that a range has to keep. -/
def InBounds (ptr size : Addr) : Prop :=
  ptr ≠ 0 ∧ ptr < userAddrMax ∧ ptr ≤ ptr + size ∧ ptr + size ≤ userAddrMax

instance (ptr size : Addr) : Decidable (InBounds ptr size) :=
  inferInstanceAs (Decidable (_ ∧ _ ∧ _ ∧ _))

/-- The pages from `first_page` to `last_page`. -/
def userPages (ptr size : Addr) : List Addr :=
  let firstPage := ptr &&& pageMask
  let lastPage := (ptr + size - 1) &&& pageMask
  (List.range (((lastPage - firstPage) / 0x1000).toNat + 1)).map fun k =>
    firstPage + BitVec.ofNat 64 k * 0x1000

/-- The tests of one page: it is mapped, and its entry has the flag. -/
def pageHas (flag : Word) (vm : Vm) (cr3 page : Addr) : Bool :=
  if vmmGetPhys vm cr3 page = 0 then false
  else
    match findPt vm cr3 page with
    | none => false
    | some pt =>
      let e := vm.mem pt (tableIndex page 12)
      present e && e &&& flag != 0

/-- The checks that all ranges go through, with the flag that their pages need. -/
def validateRange (flag : Word) (vm : Vm) (cr3 ptr size : Addr) : Bool :=
  if InBounds ptr size then size == 0 || (userPages ptr size).all (pageHas flag vm cr3) else false

/-- `validate_user_ptr` -/
def validateUserPtr : Vm → Addr → Addr → Addr → Bool := validateRange pageUser

/-- `validate_user_ptr_writable` -/
def validateUserPtrWritable : Vm → Addr → Addr → Addr → Bool := validateRange pageWritable

/-! ## Ranges and entries -/

variable {vm vm' : Vm} {cr3 ptr size page root child : Addr} {flag : Word}

theorem pageMask_toNat (x : Addr) : (x &&& pageMask).toNat = x.toNat - x.toNat % 4096 :=
  tableAddr_toNat x

/-- The page of an address. -/
def pageOf (a : Nat) : Addr := BitVec.ofNat 64 a &&& pageMask

theorem pageOf_toNat {a : Nat} (ha : a < 2 ^ 64) : (pageOf a).toNat = a - a % 4096 := by
  rw [pageOf, pageMask_toNat, BitVec.toNat_ofNat, Nat.mod_eq_of_lt ha]

theorem inBounds_iff : InBounds ptr size ↔
    ptr ≠ 0 ∧ ptr < userAddrMax ∧ ptr.toNat + size.toNat ≤ userAddrMax.toNat := by
  have hsize := size.isLt
  unfold InBounds
  rw [BitVec.le_def, BitVec.le_def, BitVec.lt_def, BitVec.toNat_add, userAddrMax_toNat]
  exact and_congr_right fun _ => by omega

/-- The pages of a range are those of its addresses. -/
theorem mem_userPages (hb : InBounds ptr size) (hsize : size ≠ 0) : page ∈ userPages ptr size ↔
    ∃ a, ptr.toNat ≤ a ∧ a < ptr.toNat + size.toNat ∧ pageOf a = page := by
  obtain ⟨-, -, hend⟩ := inBounds_iff.mp hb
  rw [userAddrMax_toNat] at hend
  have hpos : 0 < size.toNat := by
    apply Nat.pos_of_ne_zero
    intro hzero
    exact hsize (BitVec.eq_of_toNat_eq hzero)
  have hsum : (ptr + size).toNat = ptr.toNat + size.toNat := by
    rw [BitVec.toNat_add]
    omega
  have hlast : (ptr + size - 1).toNat = ptr.toNat + size.toNat - 1 := by
    rw [BitVec.toNat_sub_of_le, hsum]
    · rfl
    · rw [BitVec.le_def, hsum]
      show 1 ≤ _
      omega
  have hfirst := pageMask_toNat ptr
  have hlast' := pageMask_toNat (ptr + size - 1)
  rw [hlast] at hlast'
  have hcount : (((ptr + size - 1) &&& pageMask) - (ptr &&& pageMask)).toNat =
      ((ptr + size - 1) &&& pageMask).toNat - (ptr &&& pageMask).toNat := by
    apply BitVec.toNat_sub_of_le
    rw [BitVec.le_def]
    omega
  have hdiv : ((((ptr + size - 1) &&& pageMask) - (ptr &&& pageMask)) / 0x1000).toNat =
      (((ptr + size - 1) &&& pageMask).toNat - (ptr &&& pageMask).toNat) / 4096 := by
    rw [BitVec.toNat_udiv, hcount]
    rfl
  have hpage {a k : Nat} (ha : a < 2 ^ 47)
      (hk : (ptr &&& pageMask).toNat + k * 4096 = a - a % 4096) :
      (ptr &&& pageMask) + BitVec.ofNat 64 k * 0x1000 = pageOf a := by
    have hmul : (BitVec.ofNat 64 k * 0x1000).toNat = k * 4096 := by
      rw [BitVec.toNat_mul, BitVec.toNat_ofNat, Nat.mod_eq_of_lt (by omega : k < 2 ^ 64)]
      exact Nat.mod_eq_of_lt (by omega : k * 4096 < 2 ^ 64)
    apply BitVec.eq_of_toNat_eq
    rw [pageOf_toNat (by omega), BitVec.toNat_add, hmul]
    omega
  simp only [userPages, List.mem_map, mem_range, hdiv]
  constructor
  · intro ⟨k, hk, heq⟩
    refine ⟨max ptr.toNat ((ptr &&& pageMask).toNat + k * 4096), by omega, by omega, ?_⟩
    rw [← heq]
    exact (hpage (by omega) (by omega)).symm
  · intro ⟨a, ha, hlt, heq⟩
    refine ⟨(a - (ptr &&& pageMask).toNat) / 4096, by omega, ?_⟩
    rw [← heq]
    exact hpage (by omega) (by omega)

/-- The pages of a range are user pages. -/
theorem page_lt_of_mem (hb : InBounds ptr size) (hsize : size ≠ 0)
    (hpage : page ∈ userPages ptr size) :
    page < userAddrMax := by
  obtain ⟨a, ha, hlt, rfl⟩ := (mem_userPages hb hsize).mp hpage
  obtain ⟨-, -, hend⟩ := inBounds_iff.mp hb
  rw [userAddrMax_toNat] at hend
  rw [BitVec.lt_def, userAddrMax_toNat, pageOf_toNat (by omega)]
  omega

theorem userPages_ne_nil (ptr size : Addr) : userPages ptr size ≠ [] := by
  intro hnil
  rw [userPages, map_eq_nil_iff, range_eq_nil] at hnil
  exact Nat.succ_ne_zero _ hnil

/-- The tests of a page, as a test of the entry that maps it. -/
theorem pageHas_eq (hr : IsFrame cr3) (hpage : page < userAddrMax) :
    pageHas flag vm cr3 page =
      (leafAt vm.mem cr3 (pagePath page)).any fun e => leafAddr e != 0 && (e &&& flag != 0) := by
  have hlow := tableIndex_lt hpage
  rw [pageHas, vmmGetPhys_eq_leafAt hr hlow, leafAt_pagePath hr hlow]
  cases findPt vm cr3 page with
  | none => rfl
  | some pt =>
    by_cases hp : present (vm.mem pt (tableIndex page 12)) = true
    · simp only [bind_some, hp, if_true, map_some, getD_some, any_some,
        Bool.true_and]
      split_ifs with hzero
      · rw [hzero]
        rfl
      · rw [bne_iff_ne.mpr hzero, Bool.true_and]
    · simp only [bind_some, if_neg hp, map_none, getD_none, if_true,
        any_none]

/-- The answer depends on the entries of the space only. -/
theorem validateRange_congr (hr : IsFrame cr3)
    (h : ∀ p, leafAt vm'.mem cr3 p = leafAt vm.mem cr3 p) (flag : Word) (ptr size : Addr) :
    validateRange flag vm' cr3 ptr size = validateRange flag vm cr3 ptr size := by
  rw [validateRange, validateRange]
  split_ifs with hb
  · by_cases hsize : size = 0
    · rw [hsize]
      rfl
    · congr 1
      rw [Bool.eq_iff_iff, List.all_eq_true, List.all_eq_true]
      refine forall₂_congr fun page hpage => ?_
      have hlt := page_lt_of_mem hb hsize hpage
      rw [pageHas_eq hr hlt, pageHas_eq hr hlt, h]
  · rfl

/-- Page tables that map no page to the frame at address 0. -/
structure NonzeroFrames (vm : Vm) (cr3 : Addr) : Prop where
  root : IsFrame cr3
  leaf : ∀ p e, leafAt vm.mem cr3 p = some e → leafAddr e ≠ 0

/-- A range in its bounds is accepted if the entries of its pages have the flag. -/
theorem validateRange_iff (h : NonzeroFrames vm cr3) :
    validateRange flag vm cr3 ptr size = true ↔ InBounds ptr size ∧ (size = 0 ∨
      ∀ page ∈ userPages ptr size, ∃ e, leafAt vm.mem cr3 (pagePath page) = some e ∧
        e &&& flag ≠ 0) := by
  rw [validateRange]
  by_cases hb : InBounds ptr size
  · rw [if_pos hb, Bool.or_eq_true, beq_iff_eq, List.all_eq_true]
    simp only [hb, true_and]
    refine or_congr_right' fun hsize => forall₂_congr fun page hpage => ?_
    rw [pageHas_eq h.root (page_lt_of_mem hb hsize hpage), Option.any_eq_true]
    refine exists_congr fun e => and_congr_right fun hleaf => ?_
    rw [bne_iff_ne.mpr (h.leaf _ e hleaf), Bool.true_and, bne_iff_ne]
  · simp only [hb, if_false, false_and, Bool.false_eq_true]

/-! ## Forking -/

variable {roots loose : Multiset Addr} {lost : Addr → ℕ} {held : Addr → Prop}

theorem nonzeroFrames (h : Forest vm roots loose lost held) (hr : root ∈ roots) :
    NonzeroFrames vm root := by
  refine ⟨h.roots_frame root hr, fun p e hleaf => ?_⟩
  obtain ⟨hmanaged, -⟩ := (h.mapped_page hr hleaf).1
  exact hmanaged.ne_zero h.ok

/-- After a copy no range with a page in it is accepted for writing. -/
theorem validate_cowed {cr3' : Addr} (hr : IsFrame cr3')
    (hcow : ∀ p, leafAt vm'.mem cr3' p = (leafAt vm.mem root p).map cowEntry) :
    validateUserPtrWritable vm' cr3' ptr size = true ↔ InBounds ptr size ∧ size = 0 := by
  rw [validateUserPtrWritable, validateRange]
  by_cases hb : InBounds ptr size
  · rw [if_pos hb, Bool.or_eq_true, beq_iff_eq, List.all_eq_true]
    simp only [hb, true_and, or_iff_left_iff_imp]
    intro hall
    by_contra hsize
    obtain ⟨page, hpage⟩ := exists_mem_of_ne_nil _ (userPages_ne_nil ptr size)
    have hhas := hall page hpage
    rw [pageHas_eq hr (page_lt_of_mem hb hsize hpage), hcow] at hhas
    cases hleaf : leafAt vm.mem root (pagePath page) with
    | none => simp [hleaf] at hhas
    | some e =>
      have hoff : (cowEntry e &&& pageWritable != 0) = false := writable_cowEntry e
      rw [hleaf, map_some, any_some, hoff, Bool.and_false] at hhas
      cases hhas
  · simp only [hb, if_false, false_and, Bool.false_eq_true]

/-- Some page of the range cannot be written to at once. -/
def SomeReadOnly (vm : Vm) (cr3 ptr size : Addr) : Prop :=
  ∃ page ∈ userPages ptr size, ∀ e, leafAt vm.mem cr3 (pagePath page) = some e → writable e = false

theorem validate_eq_true_iff (ptr size : Addr)
    (h : Forest vm roots loose lost held) (hr : root ∈ roots) :
    validateUserPtrWritable vm root ptr size = true ↔
      InBounds ptr size ∧ (size = 0 ∨ ¬SomeReadOnly vm root ptr size) := by
  rw [validateUserPtrWritable, validateRange_iff (nonzeroFrames h hr), SomeReadOnly]
  push Not
  refine and_congr_right fun _ => or_congr_right ?_
  refine forall₂_congr fun page _ => exists_congr fun e => and_congr_right fun _ => ?_
  rw [← bne_iff_ne, Ne, Bool.not_eq_false]
  rfl

/-- `validate_user_ptr_writable` gives the same answer after `vmm_copy_userspace` as before, for
parent and child, if and only if it refuses the range by its bounds, the range is empty, or
some page of it was not writable before. -/
theorem validate_after_copy_iff (h : Forest vm (child ::ₘ roots) loose lost held)
    (hbare : Bare vm.mem child) (hr : root ∈ roots)
    (hcopy : vmmCopyUserspace child root vm = (true, vm')) (ptr size : Addr) :
    (validateUserPtrWritable vm' root ptr size = validateUserPtrWritable vm root ptr size ∧
        validateUserPtrWritable vm' child ptr size = validateUserPtrWritable vm root ptr size) ↔
      ¬InBounds ptr size ∨ size = 0 ∨ SomeReadOnly vm root ptr size := by
  have hin := Multiset.mem_cons_of_mem (b := child) hr
  obtain ⟨-, hspace⟩ := h.copy hbare hr hcopy
  refine (and_congr Bool.eq_iff_iff Bool.eq_iff_iff).trans ?_
  rw [validate_eq_true_iff ptr size h hin,
    validate_cowed (h.roots_frame root hin) (hspace.source rfl),
    validate_cowed (h.roots_frame child (Multiset.mem_cons_self child roots)) (hspace.copy rfl),
    and_self]
  by_cases hb : InBounds ptr size
  · simp only [hb, true_and, not_true, false_or]
    by_cases hsize : size = 0
    · simp only [hsize, true_or]
    · simp only [hsize, false_or, false_iff, not_not]
  · simp only [hb, false_and, not_false_iff, true_or]

/-! ## A fork of a small space -/

/-- A space with one page at address 0, read-only or writable, is copied. -/
theorem onePage_copied {flags : Word} (hflags : flags = 5 ∨ flags = 7) :
    ∃ child vm vm', Forest vm (child ::ₘ {0x100000}) 0 (fun _ => 0) (fun _ => False) ∧
      Bare vm.mem child ∧ vmmCopyUserspace child 0x100000 vm = (true, vm') ∧
      leafAt vm.mem 0x100000 (pagePath 0) = some (mapEntry 0x101000 flags) ∧
      validateUserPtrWritable vm 0x100000 8 4 = (flags == 7) := by
  have hdone : (vmmMapPage 0x100000 0 0x101000 flags bareVm).1 = true := by
    rcases hflags with rfl | rfl <;> decide
  obtain ⟨hforest, hsparse, hroom, -⟩ := onePage_spec (by rcases hflags with rfl | rfl <;> decide)
    (by rcases hflags with rfl | rfl <;> decide) hdone
  obtain ⟨t, vm, halloc, hroom1, hok, hmem⟩ :=
    allocPageTable_room (m := maxPages - 6) hforest.ok hroom
  have hcreate : vmmCreatePml4 (onePage flags) = (t, vm) := by rw [vmmCreatePml4, halloc]
  obtain ⟨vm', hcopy, -⟩ := copiesSparse_vmmCopyUserspace (maxPages - 9) t 0x100000 vm hok
    (hsparse.blank hmem) hroom1
  have hchild : (vmmCreatePml4 (onePage flags)).1 ≠ 0 := by
    rcases hflags with rfl | rfl <;> decide +kernel
  have hleaf : leafAt (vmmCreatePml4 (onePage flags)).2.mem 0x100000 (pagePath 0) =
      some (mapEntry 0x101000 flags) := by
    rcases hflags with rfl | rfl <;> decide +kernel
  have hvalid : validateUserPtrWritable (vmmCreatePml4 (onePage flags)).2 0x100000 8 4 =
      (flags == 7) := by
    rcases hflags with rfl | rfl <;> decide +kernel
  rw [hcreate] at hchild hleaf hvalid
  obtain ⟨-, -, -, hbare, h⟩ :=
    (hforest.createPml4 hcreate).resolve_left fun hzero => hchild hzero.1
  exact ⟨t, vm, vm', h, hbare, hcopy, hleaf, hvalid⟩

/-- The buffer at address 8 of a process that has written to its page is refused after a fork. -/
theorem validate_changes_on_copy : ∃ child vm vm',
    vmmCopyUserspace child 0x100000 vm = (true, vm') ∧
      leafAt vm.mem 0x100000 (pagePath 0) = some (mapEntry 0x101000 7) ∧
      validateUserPtrWritable vm 0x100000 8 4 = true ∧
      validateUserPtrWritable vm' 0x100000 8 4 = false ∧
      validateUserPtrWritable vm' child 8 4 = false := by
  obtain ⟨child, vm, vm', h, hbare, hcopy, hleaf, hvalid⟩ := onePage_copied (.inr rfl)
  have hroot : (0x100000 : Addr) ∈ ({0x100000} : Multiset Addr) := Multiset.mem_singleton_self _
  have hin := Multiset.mem_cons_of_mem (b := child) hroot
  obtain ⟨-, hspace⟩ := h.copy hbare hroot hcopy
  refine ⟨child, vm, vm', hcopy, hleaf, hvalid, ?_, ?_⟩
  · rw [← Bool.not_eq_true, validate_cowed (h.roots_frame _ hin) (hspace.source rfl)]
    decide
  · rw [← Bool.not_eq_true, validate_cowed
      (h.roots_frame child (Multiset.mem_cons_self child _)) (hspace.copy rfl)]
    decide

/-- A buffer in a read-only page is refused before and after. -/
theorem validate_readOnly_after_copy : ∃ child vm vm',
    vmmCopyUserspace child 0x100000 vm = (true, vm') ∧
      leafAt vm.mem 0x100000 (pagePath 0) = some (mapEntry 0x101000 5) ∧
      validateUserPtrWritable vm' 0x100000 8 4 = validateUserPtrWritable vm 0x100000 8 4 ∧
      validateUserPtrWritable vm' child 8 4 = validateUserPtrWritable vm 0x100000 8 4 := by
  obtain ⟨child, vm, vm', h, hbare, hcopy, hleaf, -⟩ := onePage_copied (.inl rfl)
  refine ⟨child, vm, vm', hcopy, hleaf, ?_⟩
  refine (validate_after_copy_iff h hbare (Multiset.mem_singleton_self _) hcopy 8 4).mpr
    (.inr (.inr ⟨0, by decide +kernel, fun e he => ?_⟩))
  cases hleaf.symm.trans he
  decide

end Crius.Syscall
