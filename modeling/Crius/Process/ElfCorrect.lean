import Crius.Process.ElfLoaded

/-!
# What a loaded program finds

Contents and permissions of the pages after a successful load. The contents are right for
every well-formed file. A segment without bytes still gets a page if its address is not
aligned, and the permissions of a page that segments share depend on their order: a later
segment can make the page writable but not executable.
-/
namespace Crius.Elf

open Mm Option List

variable {elf : Buffer} {cr3 page : Addr} {vm : Vm} {s' : Loader} {entry : Addr} {v : ℕ × ℕ}

/-- The page was under an empty entry of the PML4 before. -/
def Vacant (vm : Vm) (cr3 page : Addr) : Prop := present (vm.mem cr3 (tableIndex page 39)) = false

/-! ## Pages and visits -/

/-- The entry of a page, by its visits. -/
theorem leafWord_visits (h : EmptyFor elf cr3 vm)
    (hrun : elfLoadToTask cr3 (some elf) vm = (entry, s')) (hentry : entry ≠ 0)
    (hv : Vacant vm cr3 page) :
    (leafWord s'.vm cr3 page).map (toCell s'.vm.mem) = cellOf elf (visitsAt elf page) := by
  obtain ⟨hspace, hview⟩ := view_elfLoadToTask h hrun hentry
  rw [← elfImage_pagePath, ← hview, view,
    entryAt_pagePath hspace.tables.frame (mem_emptyEntries.mpr hv)]
  rfl

theorem tableIndex_of_pagePath {a b : Addr} (h : pagePath a = pagePath b) :
    tableIndex a 39 = tableIndex b 39 ∧ tableIndex a 30 = tableIndex b 30 ∧
      tableIndex a 21 = tableIndex b 21 ∧ tableIndex a 12 = tableIndex b 12 := by
  simpa [pagePath] using h

theorem leafWord_congr {a b : Addr} (h : pagePath a = pagePath b) :
    leafWord vm cr3 a = leafWord vm cr3 b := by
  obtain ⟨h39, h30, h21, h12⟩ := tableIndex_of_pagePath h
  rw [leafWord, leafWord, findPt, findPt, h39, h30, h21, h12]

theorem EmptyFor.vacant (h : EmptyFor elf cr3 vm) (hv : v ∈ visitsAt elf page) :
    Vacant vm cr3 page := by
  rw [mem_visitsAt] at hv
  rw [Vacant, ← (tableIndex_of_pagePath hv.2).1]
  exact h.empty v (mem_visits.mpr hv.1)

/-- The addresses of a page have its path. -/
theorem pagePath_of_page {a : Addr} (h : page.toNat = a.toNat - a.toNat % 4096) :
    pagePath a = pagePath page := by
  have hindex (s : ℕ) (hs : 2 ^ s % 4096 = 0) : tableIndex a s = tableIndex page s := by
    apply Fin.ext
    rw [tableIndex_val, tableIndex_val]
    congr 1
    obtain ⟨d, hd⟩ := Nat.dvd_of_mod_eq_zero hs
    have hdiv : page.toNat / 4096 = a.toNat / 4096 := by omega
    rw [hd, ← Nat.div_div_eq_div_mul, ← Nat.div_div_eq_div_mul, hdiv]
  rw [pagePath, pagePath, hindex 39 (by decide), hindex 30 (by decide), hindex 21 (by decide),
    hindex 12 (by decide)]

/-! ## Contents -/

/-- The contents of the segments are in memory, and there are no other pages. -/
structure LoadedRight (elf : Buffer) (cr3 : Addr) (vm vm' : Vm) : Prop where
  data : ∀ i, elf.Segment i → ∀ k < (elf.phdr i).pFilesz.toNat,
    byteAt vm' cr3 ((elf.phdr i).pVaddr + BitVec.ofNat 64 k) =
      some (elf.byte ((elf.phdr i).pOffset + BitVec.ofNat 64 k))
  zeros : ∀ i, elf.Segment i → ∀ k, (elf.phdr i).pFilesz.toNat ≤ k → k < (elf.phdr i).pMemsz.toNat →
    byteAt vm' cr3 ((elf.phdr i).pVaddr + BitVec.ofNat 64 k) = some 0
  pages : ∀ page, IsPage page → Vacant vm cr3 page → (leafWord vm' cr3 page).isSome = true →
    ∃ i, elf.Segment i ∧ (elf.phdr i).Meets page

/-- The page of an empty segment is also a page of another one. -/
def Buffer.NoStray (elf : Buffer) : Prop :=
  ∀ i, elf.Segment i → (elf.phdr i).pMemsz.toNat = 0 → (elf.phdr i).pVaddr.toNat % 4096 ≠ 0 →
    ∃ j, elf.Segment j ∧ (elf.phdr j).Meets (elf.phdr i).firstPage

namespace Buffer.WellFormed

variable (hwf : elf.WellFormed)

include hwf

theorem user {i : ℕ} (hi : elf.Segment i) :
    (elf.phdr i).pVaddr.toNat + (elf.phdr i).pMemsz.toNat ≤ 2 ^ 47 := by
  have h := hwf.inUser i hi
  rwa [userAddrMax_toNat] at h

/-- The visits of a page are visits at its address. -/
theorem visitPage_eq (hpage : IsPage page) (hv : v ∈ visitsAt elf page) :
    visitPage elf v = page ∧ (elf.phdr v.1).firstPage.toNat + v.2 * 4096 < 2 ^ 64 := by
  obtain ⟨⟨hseg, hp⟩, hpath⟩ := mem_visitsAt.mp hv
  obtain ⟨hlt, -, hisPage⟩ := page_of_user (hwf.user hseg) hp
  exact ⟨pagePath_inj hpage hisPage hpath, by omega⟩

/-- The data for an address comes from the segment that has it. -/
theorem dataAt_of_has {i j : ℕ} {a : ℕ} {b : Byte} (hi : elf.Segment i) (hj : elf.Segment j)
    (ha : (elf.phdr i).Has a) (hdata : (elf.phdr j).dataAt elf a = some b) :
    (elf.phdr i).dataAt elf a = some b := by
  have hsizes := hwf.sizes j hj
  have hhas : (elf.phdr j).Has a := by
    rw [Phdr.dataAt, ite_none_right_eq_some] at hdata
    obtain ⟨⟨hle, hlt⟩, -⟩ := hdata
    exact ⟨hle, by omega⟩
  by_cases hij : i = j
  · rw [hij]
    exact hdata
  · exact absurd ⟨ha, hhas⟩ (hwf.apart i j hi hj hij a)

/-- The bytes of a segment. -/
theorem byteAt_segment {i a : ℕ} (h : EmptyFor elf cr3 vm)
    (hrun : elfLoadToTask cr3 (some elf) vm = (entry, s')) (hentry : entry ≠ 0) (hi : elf.Segment i)
    (ha : (elf.phdr i).Has a) :
    byteAt s'.vm cr3 (BitVec.ofNat 64 a) = some (((elf.phdr i).dataAt elf a).getD 0) := by
  have huser := hwf.user hi
  obtain ⟨p, hp, hpage⟩ := exists_page huser ha
  have hisPage := (page_of_user huser hp).2.2
  have hnat : (BitVec.ofNat 64 a).toNat = a := by
    rw [BitVec.toNat_ofNat]
    omega
  generalize hpg : (elf.phdr i).page p = page at hpage hisPage
  have hmem : (i, p) ∈ visitsAt elf page := by
    refine mem_visitsAt.mpr ⟨⟨hi, hp⟩, ?_⟩
    rw [visitPage, hpg]
  have hpath : pagePath (BitVec.ofNat 64 a) = pagePath page := pagePath_of_page (by rw [hnat, hpage])
  have hword := leafWord_visits h hrun hentry (h.vacant hmem)
  cases hcell : cellOf elf (visitsAt elf page) with
  | none =>
    rw [cellOf_eq_none.mp hcell] at hmem
    cases hmem
  | some c =>
    rw [hcell, map_eq_some_iff] at hword
    obtain ⟨w, hw, hc⟩ := hword
    have hbyte := cellOf_byte (Nat.mod_lt a (by decide)) (fun v hv => hwf.visitPage_eq hisPage hv) hcell
    rw [show page.toNat + a % 4096 = a by omega, ← hc] at hbyte
    rw [byteAt, leafWord_congr hpath, hw, map_some, hnat]
    refine congrArg some (Eq.trans hbyte ?_)
    -- all the data for this address is that of segment `i`
    have hsource (b : Byte) (hb : b ∈ (visitsAt elf page).filterMap fun v =>
        (elf.phdr v.1).dataAt elf a) : (elf.phdr i).dataAt elf a = some b := by
      obtain ⟨v, hv, hdata⟩ := mem_filterMap.mp hb
      exact hwf.dataAt_of_has hi (mem_visitsAt.mp hv).1.1 ha hdata
    cases hlast : ((visitsAt elf page).filterMap fun v => (elf.phdr v.1).dataAt elf a).getLast? with
    | some b => rw [hsource b (mem_of_getLast? hlast), getD_some]
    | none =>
      cases hdata : (elf.phdr i).dataAt elf a with
      | none => rfl
      | some b =>
        have hin : b ∈ (visitsAt elf page).filterMap fun v => (elf.phdr v.1).dataAt elf a :=
          mem_filterMap.mpr ⟨(i, p), hmem, hdata⟩
        rw [getLast?_eq_none_iff.mp hlast] at hin
        cases hin

/-- Every page of the file has an address of a segment, but for the page of an empty one. -/
theorem meets_or_empty (hpage : IsPage page) (hv : v ∈ visitsAt elf page) :
    (elf.phdr v.1).Meets page ∨ (elf.phdr v.1).pMemsz.toNat = 0 ∧
      (elf.phdr v.1).pVaddr.toNat % 4096 ≠ 0 ∧ page = (elf.phdr v.1).firstPage := by
  have heq := (hwf.visitPage_eq hpage hv).1
  obtain ⟨⟨hseg, hp⟩, -⟩ := mem_visitsAt.mp hv
  have huser := hwf.user hseg
  by_cases hsize : 0 < (elf.phdr v.1).pMemsz.toNat
  · refine .inl ?_
    rw [← heq]
    exact meets_page huser hp hsize
  · have hzero : (elf.phdr v.1).pMemsz.toNat = 0 := by omega
    have hcount := pageCount_of_user huser
    have hfirst : v.2 = 0 := by omega
    refine .inr ⟨hzero, (pageCount_empty huser hzero).mp (by omega), ?_⟩
    rw [← heq, visitPage, hfirst, Phdr.page]
    exact BitVec.add_zero _

end Buffer.WellFormed

/-! ## Files -/

/-- A machine with free memory in which one PML4 has been made. -/
def newVm : Vm := (vmmCreatePml4 emptyVm).2

theorem vacant_newVm (page : Addr) : Vacant newVm 0x100000 page := by
  have hblank : ∀ i, newVm.mem 0x100000 i = 0 := by decide +kernel
  rw [Vacant, hblank]
  rfl

/-- Any file can be loaded into the new address space. -/
theorem emptyFor_newVm (elf : Buffer) : EmptyFor elf 0x100000 newVm := by
  have hcreate : vmmCreatePml4 emptyVm = (0x100000, newVm) := Prod.ext (by decide) rfl
  obtain ⟨-, ht, -⟩ := (forest_emptyVm.createPml4 hcreate).resolve_left (by simp)
  exact ⟨ht.ok, (Grown.take ht).inUse_new mem_cons_self, fun v _ => vacant_newVm _⟩

theorem segment_of_one (hnum : elf.ePhnum.toNat = 1) {i : ℕ} (hi : elf.Segment i) : i = 0 := by
  have hlt := hi.1
  omega

/-- A file with one segment is well formed when the segment is. -/
theorem wellFormed_of_one (hnum : elf.ePhnum.toNat = 1)
    (hsizes : (elf.phdr 0).pFilesz.toNat ≤ (elf.phdr 0).pMemsz.toNat)
    (hfile : (elf.phdr 0).pOffset.toNat + (elf.phdr 0).pFilesz.toNat ≤ elf.size.toNat)
    (huser : (elf.phdr 0).pVaddr.toNat + (elf.phdr 0).pMemsz.toNat ≤ userAddrMax.toNat) :
    elf.WellFormed := by
  refine ⟨fun i hi => ?_, fun i hi => ?_, fun i hi => ?_, fun i j hi hj hij => ?_⟩
  · rw [segment_of_one hnum hi]
    exact hsizes
  · rw [segment_of_one hnum hi]
    exact hfile
  · rw [segment_of_one hnum hi]
    exact huser
  · exact absurd ((segment_of_one hnum hi).trans (segment_of_one hnum hj).symm) hij

/-- 120 bytes of the file at `0x400ff8`, and zeros up to the third page. -/
def threePages : Buffer := smallFile 64 0 0x400ff8 120 0x1100

/-- A segment without bytes at `0x400001`. -/
def emptySegment : Buffer := smallFile 64 0 0x400001 0 0

/-- Loading is correct for a well-formed file if and only if no empty segment lies alone on its
page, at an address that is not aligned. -/
theorem elf_loaded_right_iff (hwf : elf.WellFormed) (h : EmptyFor elf cr3 vm)
    (hrun : elfLoadToTask cr3 (some elf) vm = (entry, s')) (hentry : entry ≠ 0) :
    LoadedRight elf cr3 vm s'.vm ↔ elf.NoStray := by
  have haddr (i k : ℕ) : (elf.phdr i).pVaddr + BitVec.ofNat 64 k =
      BitVec.ofNat 64 ((elf.phdr i).pVaddr.toNat + k) := by
    rw [BitVec.ofNat_add, BitVec.ofNat_toNat, BitVec.setWidth_eq]
  constructor
  · intro hright i hi hzero hoff
    have huser := hwf.user hi
    have hp := (pageCount_empty huser hzero).mpr hoff
    have hfirst : (elf.phdr i).page 0 = (elf.phdr i).firstPage := BitVec.add_zero _
    have hisPage := (page_of_user huser hp).2.2
    rw [hfirst] at hisPage
    have hmem : (i, 0) ∈ visitsAt elf (elf.phdr i).firstPage := by
      refine mem_visitsAt.mpr ⟨⟨hi, hp⟩, ?_⟩
      rw [visitPage, hfirst]
    have hword := leafWord_visits h hrun hentry (h.vacant hmem)
    refine hright.pages _ hisPage (h.vacant hmem) ?_
    rw [← isSome_map, hword, isSome_iff_ne_none]
    intro hnone
    rw [cellOf_eq_none.mp hnone] at hmem
    cases hmem
  · intro hstray
    refine ⟨fun i hi k hk => ?_, fun i hi k hk hlt => ?_, fun page hpage hv hmapped => ?_⟩
    · have hsizes := hwf.sizes i hi
      have hdata : (elf.phdr i).dataAt elf ((elf.phdr i).pVaddr.toNat + k) =
          some (elf.byte ((elf.phdr i).pOffset + BitVec.ofNat 64 k)) := by
        rw [Phdr.dataAt, if_pos (by omega), Nat.add_sub_cancel_left]
      rw [haddr, hwf.byteAt_segment h hrun hentry hi ⟨by omega, by omega⟩, hdata, getD_some]
    · have hdata : (elf.phdr i).dataAt elf ((elf.phdr i).pVaddr.toNat + k) = none := by
        rw [Phdr.dataAt, if_neg (by omega)]
      rw [haddr, hwf.byteAt_segment h hrun hentry hi ⟨by omega, by omega⟩, hdata, getD_none]
    · have hword := leafWord_visits h hrun hentry hv
      rw [← isSome_map, hword] at hmapped
      cases hvisits : visitsAt elf page with
      | nil =>
        rw [hvisits] at hmapped
        cases hmapped
      | cons v rest =>
        have hmem : v ∈ visitsAt elf page := by
          rw [hvisits]
          exact mem_cons_self
        have hseg := (mem_visitsAt.mp hmem).1.1
        rcases hwf.meets_or_empty hpage hmem with hmeets | ⟨hzero, hoff, heq⟩
        · exact ⟨v.1, hseg, hmeets⟩
        · rw [heq]
          exact hstray v.1 hseg hzero hoff

/-- Data over a page boundary, and zeros after it. -/
theorem elf_loaded_right_three_pages :
    LoadedRight threePages 0x100000 newVm (elfLoadToTask 0x100000 (some threePages) newVm).2.vm := by
  have hnum : threePages.ePhnum.toNat = 1 := by decide +kernel
  have hsize : (threePages.phdr 0).pMemsz.toNat ≠ 0 := by decide +kernel
  have hentry : (elfLoadToTask 0x100000 (some threePages) newVm).1 ≠ 0 := by decide +kernel
  rcases hrun : elfLoadToTask 0x100000 (some threePages) newVm with ⟨entry, s'⟩
  rw [hrun] at hentry
  refine (elf_loaded_right_iff (wellFormed_of_one hnum ?_ ?_ ?_) (emptyFor_newVm _) hrun hentry).mpr ?_
  · decide +kernel
  · decide +kernel
  · decide +kernel
  · intro i hi hzero
    rw [segment_of_one hnum hi] at hzero
    exact absurd hzero hsize

/-- An empty segment maps a page that no segment has an address on. -/
theorem elf_maps_stray_page :
    emptySegment.WellFormed ∧ EmptyFor emptySegment 0x100000 newVm ∧
      (elfLoadToTask 0x100000 (some emptySegment) newVm).1 ≠ 0 ∧
      ¬LoadedRight emptySegment 0x100000 newVm
        (elfLoadToTask 0x100000 (some emptySegment) newVm).2.vm := by
  have hnum : emptySegment.ePhnum.toNat = 1 := by decide +kernel
  refine ⟨wellFormed_of_one hnum ?_ ?_ ?_, emptyFor_newVm _, ?_, fun hright => ?_⟩
  · decide +kernel
  · decide +kernel
  · decide +kernel
  · decide +kernel
  · have hmapped : (leafWord (elfLoadToTask 0x100000 (some emptySegment) newVm).2.vm 0x100000
        0x400000).isSome = true := by decide +kernel
    obtain ⟨i, hi, a, ⟨hle, hlt⟩, -⟩ := hright.pages 0x400000 ⟨by decide, by decide⟩
      (vacant_newVm _) hmapped
    rw [segment_of_one hnum hi] at hle hlt
    have hsize : (emptySegment.phdr 0).pMemsz.toNat = 0 := by decide +kernel
    omega

/-! ## Permissions -/

/-- Every page has the permissions of the segments on it. -/
def HasPermissions (elf : Buffer) (cr3 : Addr) (vm vm' : Vm) : Prop :=
  ∀ page, IsPage page → Vacant vm cr3 page → ∀ w, leafWord vm' cr3 page = some w →
    (writable w = true ↔
      ∃ i, elf.Segment i ∧ (elf.phdr i).Meets page ∧ (elf.phdr i).writes = true) ∧
    (noExec w = false ↔
      ∃ i, elf.Segment i ∧ (elf.phdr i).Meets page ∧ (elf.phdr i).runs = true)

/-- On each page that the loader visits, a visiting header asks for write access if and only if
a segment on the page does, and the first visiting header asks for execution if and only if a
segment on the page does. -/
def Buffer.FirstAgrees (elf : Buffer) : Prop :=
  ∀ page, IsPage page → ∀ v rest, visitsAt elf page = v :: rest →
    ((∃ u ∈ visitsAt elf page, (elf.phdr u.1).writes = true) ↔
      ∃ i, elf.Segment i ∧ (elf.phdr i).Meets page ∧ (elf.phdr i).writes = true) ∧
    ((elf.phdr v.1).runs = true ↔
      ∃ i, elf.Segment i ∧ (elf.phdr i).Meets page ∧ (elf.phdr i).runs = true)

/-- The permissions of a page, by its visits. -/
theorem permissions_visits {rest : List (ℕ × ℕ)} {w : Word} {mem : Addr → Page}
    (hvisits : visitsAt elf page = v :: rest)
    (hcell : cellOf elf (visitsAt elf page) = some (toCell mem w)) :
    (writable w = true ↔ ∃ u ∈ visitsAt elf page, (elf.phdr u.1).writes = true) ∧
      (noExec w = false ↔ (elf.phdr v.1).runs = true) := by
  have hwrites := cellOf_writable hcell
  rw [hvisits] at hcell
  have hruns := cellOf_noExec hcell
  constructor
  · rw [show writable w = _ from hwrites, List.any_eq_true]
  · rw [show noExec w = _ from hruns, Bool.not_eq_false']

/-- The permissions are right for a file if and only if the first header on each page and the
segments on it agree. -/
theorem elf_permissions_iff (h : EmptyFor elf cr3 vm)
    (hrun : elfLoadToTask cr3 (some elf) vm = (entry, s')) (hentry : entry ≠ 0) :
    HasPermissions elf cr3 vm s'.vm ↔ elf.FirstAgrees := by
  constructor
  · intro hperm page hpage v rest hvisits
    have hmem : v ∈ visitsAt elf page := by
      rw [hvisits]
      exact mem_cons_self
    have hword := leafWord_visits h hrun hentry (h.vacant hmem)
    cases hw : leafWord s'.vm cr3 page with
    | none =>
      rw [hw] at hword
      have hnil := cellOf_eq_none.mp hword.symm
      rw [hvisits] at hnil
      exact absurd hnil (cons_ne_nil v rest)
    | some w =>
      rw [hw, map_some] at hword
      obtain ⟨hwrites, hruns⟩ := permissions_visits hvisits hword.symm
      rw [← hwrites, ← hruns]
      exact hperm page hpage (h.vacant hmem) w hw
  · intro hagree page hpage hv w hw
    have hword := leafWord_visits h hrun hentry hv
    rw [hw, map_some] at hword
    cases hvisits : visitsAt elf page with
    | nil =>
      rw [hvisits, cellOf_nil] at hword
      exact absurd hword (some_ne_none _)
    | cons v rest =>
      obtain ⟨hwrites, hruns⟩ := permissions_visits hvisits hword.symm
      rw [hwrites, hruns]
      exact hagree page hpage v rest hvisits

/-- A program header of type `PT_LOAD` for 16 bytes at offset 0 of the file. -/
def headerBytes (flags vaddr : ℕ) : List Byte :=
  leBytes 4 1 ++ leBytes 4 flags ++ leBytes 8 0 ++ leBytes 8 vaddr ++ leBytes 8 0 ++
    leBytes 8 16 ++ leBytes 8 16 ++ leBytes 8 0

/-- A file of 176 bytes with two program headers. -/
def pairFile (first second : List Byte) : Buffer where
  byte := fun off => (
    [0x7f, 0x45, 0x4c, 0x46] ++ leBytes 14 2 ++ leBytes 2 0x3E ++ leBytes 4 1 ++
      leBytes 8 0x400000 ++ leBytes 8 64 ++ leBytes 16 0 ++ leBytes 2 2 ++ leBytes 6 0 ++
      first ++ second).getD off.toNat 0
  size := 176
  object := by decide

/-- Code at `0x400000`, and then data on the same page. -/
def codeFirst : Buffer := pairFile (headerBytes 5 0x400000) (headerBytes 6 0x400800)

/-- The data at `0x400800`, and then code on the same page. -/
def dataFirst : Buffer := pairFile (headerBytes 6 0x400800) (headerBytes 5 0x400000)

/-- The page is writable for the data and executable for the code. -/
theorem elf_permissions_code_first :
    HasPermissions codeFirst 0x100000 newVm (elfLoadToTask 0x100000 (some codeFirst) newVm).2.vm := by
  have hentry : (elfLoadToTask 0x100000 (some codeFirst) newVm).1 ≠ 0 := by decide +kernel
  rcases hrun : elfLoadToTask 0x100000 (some codeFirst) newVm with ⟨entry, s'⟩
  rw [hrun] at hentry
  refine (elf_permissions_iff (emptyFor_newVm codeFirst) hrun hentry).mpr
    fun page hpage v rest hvisits => ?_
  have hcode : codeFirst.Segment 0 ∧ (codeFirst.phdr 0).pVaddr.toNat = 0x400000 ∧
      (codeFirst.phdr 0).pMemsz.toNat = 16 ∧ (codeFirst.phdr 0).runs = true := by
    rw [Buffer.Segment]
    decide +kernel
  have hdata : codeFirst.Segment 1 ∧ (codeFirst.phdr 1).pVaddr.toNat = 0x400800 ∧
      (codeFirst.phdr 1).pMemsz.toNat = 16 ∧ (codeFirst.phdr 1).writes = true := by
    rw [Buffer.Segment]
    decide +kernel
  obtain ⟨hseg0, hvaddr0, hsize0, hruns0⟩ := hcode
  obtain ⟨hseg1, hvaddr1, hsize1, hwrites1⟩ := hdata
  have hone : ∀ w ∈ visits codeFirst, visitPage codeFirst w = 0x400000 := by decide +kernel
  have hlist : visitsAt codeFirst 0x400000 = [(0, 0), (1, 0)] := by decide +kernel
  have hmem : v ∈ visitsAt codeFirst page := by
    rw [hvisits]
    exact mem_cons_self
  obtain ⟨hv, hpath⟩ := mem_filter.mp hmem
  rw [hone v hv, decide_eq_true_eq] at hpath
  obtain rfl : page = 0x400000 :=
    (pagePath_inj hpage ⟨by decide, by decide⟩ hpath).symm
  rw [hlist] at hvisits ⊢
  obtain ⟨rfl, -⟩ := cons.inj hvisits
  have hpage : (0x400000 : Addr).toNat = 0x400000 := by decide
  refine ⟨iff_of_true ⟨(1, 0), by simp, hwrites1⟩ ⟨1, hseg1, ⟨0x400800, ?_, ?_⟩, hwrites1⟩,
    iff_of_true hruns0 ⟨0, hseg0, ⟨0x400000, ?_, ?_⟩, hruns0⟩⟩
  · rw [Phdr.Has, hvaddr1, hsize1]
    decide
  · rw [hpage]
    decide
  · rw [Phdr.Has, hvaddr0, hsize0]
    decide
  · rw [hpage]
    decide

/-- With the data first, the page of the code is not executable. -/
theorem elf_permissions_data_first :
    EmptyFor dataFirst 0x100000 newVm ∧ (elfLoadToTask 0x100000 (some dataFirst) newVm).1 ≠ 0 ∧
      ¬HasPermissions dataFirst 0x100000 newVm
        (elfLoadToTask 0x100000 (some dataFirst) newVm).2.vm := by
  refine ⟨emptyFor_newVm _, by decide +kernel, fun hperm => ?_⟩
  have hword : (leafWord (elfLoadToTask 0x100000 (some dataFirst) newVm).2.vm 0x100000
      0x400000).map noExec = some true := by decide +kernel
  obtain ⟨w, hw, hnx⟩ := map_eq_some_iff.mp hword
  have hcode : dataFirst.Segment 1 ∧ (dataFirst.phdr 1).pVaddr.toNat = 0x400000 ∧
      (dataFirst.phdr 1).pMemsz.toNat = 16 ∧ (dataFirst.phdr 1).runs = true := by
    rw [Buffer.Segment]
    decide +kernel
  obtain ⟨hseg, hvaddr, hsize, hruns⟩ := hcode
  have hpage : (0x400000 : Addr).toNat = 0x400000 := by decide
  have hexec := (hperm 0x400000 ⟨by decide, by decide⟩ (vacant_newVm _) w hw).2.mpr
    ⟨1, hseg, ⟨0x400000, ⟨by omega, by omega⟩, by omega, by omega⟩, hruns⟩
  rw [hnx] at hexec
  cases hexec

end Crius.Elf
