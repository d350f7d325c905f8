import Crius.Process.ElfBuild
import Crius.Process.ElfImage

/-!
# The loader builds the image of the file

The loader in an address space that is empty where the file has its pages. What a program then
sees through the page tables is the image of the file: each round of the loader changes the
page that it visits as the image says, and no other page, since no two entries share a frame
and no frame is a table.
-/
namespace Crius.Elf

open Lib Mm Function Option List BitVec Vm Prod

/-! ## What a program sees -/

/-- `PAGE_NX` is set. -/
def noExec (e : Word) : Bool := e &&& pageNx != 0

/-- The present leaf entry for an address. -/
def leafWord (vm : Vm) (cr3 virt : Addr) : Option Word :=
  (findPt vm cr3 virt).bind fun pt =>
    if present (vm.mem pt (tableIndex virt 12)) = true then some (vm.mem pt (tableIndex virt 12))
    else none

/-- The byte at a virtual address. -/
def byteAt (vm : Vm) (cr3 virt : Addr) : Option Byte :=
  (leafWord vm cr3 virt).map fun w => pageByte (vm.mem (leafAddr w)) (virt.toNat % 4096)

def toCell (mem : Addr → Page) (w : Word) : Cell := ⟨mem (leafAddr w), writable w, noExec w⟩

/-- The pages under some entries of a PML4. -/
def view (top : Finset (Fin 512)) (r : Addr) (vm : Vm) : Image := fun q =>
  (entryAt top vm.mem r q).map (toCell vm.mem)

/-- The frames are pages in use and no tables, and no frame is mapped twice. -/
structure Space (top : Finset (Fin 512)) (r : Addr) (vm : Vm) : Prop where
  tables : Tables top r vm
  frames : ∀ q w, entryAt top vm.mem r q = some w →
    vm.pmm.InUse (leafAddr w) ∧ tablesOf top vm.mem r (leafAddr w) = 0
  once : ∀ q q' w w', entryAt top vm.mem r q = some w → entryAt top vm.mem r q' = some w' →
    leafAddr w = leafAddr w' → q = q'

/-! ## Words -/

theorem noExec_eq (e : Word) : noExec e = e.getLsbD 63 := and_bit_ne_zero getLsbD_pageNx

theorem writable_mapEntry (x : Addr) (flags : Word) :
    writable (mapEntry x flags) = writable flags := by
  rw [writable_eq, writable_eq, mapEntry, getLsbD_or, getLsbD_leafAddr _ (by decide)]
  simp

theorem noExec_mapEntry (x : Addr) (flags : Word) : noExec (mapEntry x flags) = noExec flags := by
  rw [noExec_eq, noExec_eq, mapEntry, getLsbD_or, getLsbD_leafAddr _ (by decide)]
  simp

theorem writable_flags (seg : Phdr) : writable seg.flags = seg.writes := by
  unfold Phdr.flags
  cases seg.writes <;> cases seg.runs <;> decide

theorem noExec_flags (seg : Phdr) : noExec seg.flags = !seg.runs := by
  unfold Phdr.flags
  cases seg.writes <;> cases seg.runs <;> decide

theorem writable_or_writable (e : Word) : writable (e ||| pageWritable) = true := by
  rw [writable_eq, getLsbD_or, getLsbD_pageWritable]
  simp

theorem noExec_or_writable (e : Word) : noExec (e ||| pageWritable) = noExec e := by
  rw [noExec_eq, noExec_eq, getLsbD_or, getLsbD_pageWritable]
  simp

/-! ## One change of the space -/

namespace Space

variable {top : Finset (Fin 512)} {r virt phys : Addr} {vm vm' : Vm} {q : List (Fin 512)} {w : Word}

theorem not_table (h : Space top r vm) (hw : entryAt top vm.mem r q = some w) (x : Addr)
    (hx : 0 < tablesOf top vm.mem r x) : x ≠ leafAddr w := by
  intro heq
  have hzero := (h.frames q w hw).2
  rw [heq] at hx
  omega

/-- A frame is written. -/
theorem setPage (h : Space top r vm) (hw : entryAt top vm.mem r q = some w) (page : Page) :
    Space top r (vm.setPage (leafAddr w) page) ∧
      view top r (vm.setPage (leafAddr w) page) =
        update (view top r vm) q (some ⟨page, writable w, noExec w⟩) ∧
      entryAt top (vm.setPage (leafAddr w) page).mem r = entryAt top vm.mem r := by
  have hkeep (x : Addr) (hx : 0 < tablesOf top vm.mem r x) :
      (vm.setPage (leafAddr w) page).mem x = vm.mem x :=
    vm.setPage_mem_of_ne (h.not_table hw x hx) page
  have hentries := entryAt_congr hkeep
  have htables := tablesOf_congr hkeep
  refine ⟨⟨h.tables.mem_congr h.tables.ok fun x hx => ⟨h.tables.used x hx, hkeep x hx⟩,
    fun q' w' hw' => ?_, fun q1 q2 w1 w2 h1 h2 => ?_⟩, ?_, hentries⟩
  · rw [hentries] at hw'
    rw [htables]
    exact h.frames q' w' hw'
  · rw [hentries] at h1 h2
    exact h.once q1 q2 w1 w2 h1 h2
  · funext q'
    rw [view, hentries]
    by_cases hq : q' = q
    · rw [hq, update_self, hw, map_some, toCell, setPage_mem_self]
    · rw [update_of_ne hq, view]
      refine map_congr fun w' hw' => ?_
      have hne : leafAddr w' ≠ leafAddr w := fun heq => hq (h.once q' q w' w hw' hw heq)
      rw [toCell, toCell, vm.setPage_mem_of_ne hne]

/-- The flags of an entry are changed. -/
theorem reflag {p : List (Fin 512)} {pt : Addr} {i : Fin 512} (h : Space top r vm)
    (hl : Radix.locate (shapeOn top) vm.mem 4 (rootWord r) p = some pt) (hlen : p.length = 3)
    (hw : entryAt top vm.mem r (p ++ [i]) = some w) (w' : Word) (hp : present w' = true)
    (hleaf : leafAddr w' = leafAddr w) :
    Space top r (vm.write pt i w') ∧ view top r (vm.write pt i w') =
      update (view top r vm) (p ++ [i]) (some (toCell vm.mem w')) := by
  obtain ⟨htables', htables, hself, hothers, -⟩ := h.tables.write_leaf (i := i) hl hlen w'
  rw [if_pos hp] at hself
  have hpt : 0 < tablesOf top vm.mem r pt := tablesOf_pos (Radix.below_of_locate (k := 0) hl (by omega))
  -- the frames of all entries are those of before
  have hback (q : List (Fin 512)) (w1 : Word) (h1 : entryAt top (vm.write pt i w').mem r q = some w1) :
      ∃ w0, entryAt top vm.mem r q = some w0 ∧ leafAddr w1 = leafAddr w0 := by
    by_cases hq : q = p ++ [i]
    · rw [hq, hself] at h1
      exact ⟨w, hq ▸ hw, by rw [← some.inj h1, hleaf]⟩
    · rw [hothers q hq] at h1
      exact ⟨w1, h1, rfl⟩
  have hmem (q : List (Fin 512)) (w0 : Word) (h0 : entryAt top vm.mem r q = some w0) :
      (vm.write pt i w').mem (leafAddr w0) = vm.mem (leafAddr w0) :=
    vm.write_mem_of_ne (Ne.symm (h.not_table h0 pt hpt)) i w'
  refine ⟨⟨htables', fun q w1 h1 => ?_, fun q1 q2 w1 w2 h1 h2 heq => ?_⟩, ?_⟩
  · obtain ⟨w0, h0, hsame⟩ := hback q w1 h1
    rw [hsame, htables]
    exact h.frames q w0 h0
  · obtain ⟨v1, hv1, hsame1⟩ := hback q1 w1 h1
    obtain ⟨v2, hv2, hsame2⟩ := hback q2 w2 h2
    exact h.once q1 q2 v1 v2 hv1 hv2 (by rw [← hsame1, ← hsame2, heq])
  · funext q
    rw [view]
    by_cases hq : q = p ++ [i]
    · rw [hq, update_self, hself, map_some, toCell, toCell, hleaf, hmem _ w hw]
    · rw [update_of_ne hq, hothers q hq, view]
      refine map_congr fun w0 h0 => ?_
      rw [toCell, toCell, hmem q w0 h0]

/-- A new frame is filled and mapped. -/
theorem mapNew {vm1 : Vm} {flags : Word} (h : Space top r vm)
    (hrun : vmmMapPage r virt phys flags vm1 = (true, vm')) (ht : vm.pmm.Taken phys vm1.pmm)
    (hmem : ∀ x, x ≠ phys → vm1.mem x = vm.mem x) (htop : tableIndex virt 39 ∈ top)
    (hflags : present flags = true) (hclean : leafAddr flags = 0) :
    Space top r vm' ∧ view top r vm' = update (view top r vm) (pagePath virt)
      (some ⟨vm1.mem phys, writable flags, noExec flags⟩) := by
  have hkeep (x : Addr) (hx : vm.pmm.InUse x) : vm1.pmm.InUse x ∧ vm1.mem x = vm.mem x :=
    ⟨(Grown.take ht).inUse hx, hmem x (ht.ne hx)⟩
  have hsame (x : Addr) (hx : 0 < tablesOf top vm.mem r x) : vm1.mem x = vm.mem x :=
    (hkeep x (h.tables.used x hx)).2
  have hentries := entryAt_congr hsame
  have htables := tablesOf_congr hsame
  have h1 : Tables top r vm1 := h.tables.mem_congr ht.ok fun x hx => hkeep x (h.tables.used x hx)
  have hnew : vm1.pmm.InUse phys := (Grown.take ht).inUse_new mem_cons_self
  have hfresh : tablesOf top vm1.mem r phys = 0 := by
    rw [htables]
    apply Nat.eq_zero_of_not_pos
    intro hpos
    exact ht.ne (h.tables.used phys hpos) rfl
  have hleaf : leafAddr (mapEntry phys flags) = phys :=
    leafAddr_mapEntry (ht.managed.isFrame h.tables.ok) hclean
  obtain ⟨h', ⟨hfalse, -⟩ | ⟨-, hm⟩⟩ := h1.mapPage htop hflags hrun
  · cases hfalse
  -- the entries before, and their frames after
  have hold (q : List (Fin 512)) (w : Word) (hw : entryAt top vm.mem r q = some w) :
      vm'.pmm.InUse (leafAddr w) ∧ tablesOf top vm'.mem r (leafAddr w) = 0 ∧
        vm'.mem (leafAddr w) = vm.mem (leafAddr w) ∧ leafAddr w ≠ phys := by
    obtain ⟨hin, hzero⟩ := h.frames q w hw
    obtain ⟨hin1, hmem1⟩ := hkeep _ hin
    obtain ⟨hzero', hmem'⟩ := hm.pages (leafAddr w) hin1 (by rw [htables]; exact hzero)
    exact ⟨hm.inUse _ hin1, hzero', hmem'.trans hmem1, ht.ne hin⟩
  have hback (q : List (Fin 512)) (w : Word) (hq : q ≠ pagePath virt)
      (hw : entryAt top vm'.mem r q = some w) : entryAt top vm.mem r q = some w := by
    rw [hm.others q hq, hentries] at hw
    exact hw
  have hself (w : Word) (hw : entryAt top vm'.mem r (pagePath virt) = some w) : leafAddr w = phys := by
    rw [hm.self] at hw
    rw [← some.inj hw, hleaf]
  obtain ⟨hzero', hmem'⟩ := hm.pages phys hnew hfresh
  refine ⟨⟨h', fun q w hw => ?_, fun q1 q2 w1 w2 h1 h2 heq => ?_⟩, ?_⟩
  · by_cases hq : q = pagePath virt
    · rw [hq] at hw
      rw [hself w hw]
      exact ⟨hm.inUse phys hnew, hzero'⟩
    · obtain ⟨hin, hzero, -⟩ := hold q w (hback q w hq hw)
      exact ⟨hin, hzero⟩
  · by_cases hq1 : q1 = pagePath virt
    · by_cases hq2 : q2 = pagePath virt
      · rw [hq1, hq2]
      · rw [hq1] at h1
        rw [hself w1 h1] at heq
        exact absurd heq.symm (hold q2 w2 (hback q2 w2 hq2 h2)).2.2.2
    · by_cases hq2 : q2 = pagePath virt
      · rw [hq2] at h2
        rw [hself w2 h2] at heq
        exact absurd heq (hold q1 w1 (hback q1 w1 hq1 h1)).2.2.2
      · exact h.once q1 q2 w1 w2 (hback q1 w1 hq1 h1) (hback q2 w2 hq2 h2) heq
  · funext q
    rw [view]
    by_cases hq : q = pagePath virt
    · rw [hq, update_self, hm.self, map_some, toCell, hleaf, hmem',
        writable_mapEntry, noExec_mapEntry]
    · rw [update_of_ne hq, hm.others q hq, hentries, view]
      refine map_congr fun w hw => ?_
      rw [toCell, toCell, (hold q w hw).2.2.1]

end Space

/-! ## One round of the loader -/

section Round

variable {top : Finset (Fin 512)} {r : Addr} {elf : Buffer} {s s' : Loader} {v : ℕ × ℕ}

theorem copyFile_fill (elf : Buffer) (seg : Phdr) (virt phys : Addr) (s : Loader) :
    (copyFile elf seg virt phys s).vm = s.vm.setPage phys (seg.fill elf virt (s.vm.mem phys)) := by
  have hsame : s.vm.setPage phys (s.vm.mem phys) = s.vm := by
    rw [setPage, update_eq_self]
  have hcopy (a b : Addr) : (copyBytes elf seg virt phys a b s).vm =
      s.vm.setPage phys (seg.fillFrom elf a b (s.vm.mem phys)) := by
    rw [copyBytes, Phdr.fillFrom]
    split
    · rfl
    · exact hsame.symm
  rw [copyFile, Phdr.fill]
  split
  · split
    · exact hcopy _ _
    · exact hcopy _ _
  · exact hsame.symm

/-- A mapped page: the table that its entry is in. -/
theorem exists_pt {vm : Vm} {virt : Addr} {w : Word} (h : Tables top r vm)
    (htop : tableIndex virt 39 ∈ top) (hw : entryAt top vm.mem r (pagePath virt) = some w) :
    Radix.locate (shapeOn top) vm.mem 4 (rootWord r)
        [tableIndex virt 39, tableIndex virt 30, tableIndex virt 21] = some (pageTable r vm virt) ∧
      present w = true ∧ vm.mem (pageTable r vm virt) (tableIndex virt 12) = w := by
  rw [entryAt_pagePath h.frame htop, bind_eq_some_iff] at hw
  obtain ⟨pt, hpt, hentry⟩ := hw
  rw [ite_none_right_eq_some] at hentry
  obtain ⟨hp, heq⟩ := hentry
  cases heq
  rw [pageTable_of_findPt hpt]
  refine ⟨?_, hp, rfl⟩
  rw [← hpt, findPt_eq_locateIn rfl rfl h.frame (mem_seenOn.mpr fun _ => htop)
    (mem_seenOn_of_ne (by decide) _) (mem_seenOn_of_ne (by decide) _)]

/-- A round over a page that an earlier segment has mapped. -/
theorem Space.revisit {w : Word} (h : Space top r s.vm) (htop : tableIndex (visitPage elf v) 39 ∈ top)
    (hw : entryAt top s.vm.mem r (pagePath (visitPage elf v)) = some w)
    (hrun : (let s1 := copyFile elf (elf.phdr v.1) (visitPage elf v) (leafAddr w) s
      if (elf.phdr v.1).writes then allowWrite r (visitPage elf v) s1 else s1) = s') :
    Space top r s'.vm ∧ view top r s'.vm = loadCell elf (view top r s.vm) v := by
  have hcopy := copyFile_fill elf (elf.phdr v.1) (visitPage elf v) (leafAddr w) s
  obtain ⟨h1, hview, hentries⟩ := h.setPage hw
    ((elf.phdr v.1).fill elf (visitPage elf v) (s.vm.mem (leafAddr w)))
  rw [← hcopy] at h1 hview hentries
  have hcell : view top r s.vm (pagePath (visitPage elf v)) = some (toCell s.vm.mem w) := by
    rw [view, hw, map_some]
  generalize copyFile elf (elf.phdr v.1) (visitPage elf v) (leafAddr w) s = s1
    at hrun h1 hview hentries hcopy
  rw [← hrun, loadCell, hcell, visit]
  cases hwrites : (elf.phdr v.1).writes with
  | false =>
    rw [if_neg Bool.false_ne_true, Bool.or_false]
    exact ⟨h1, hview⟩
  | true =>
    rw [← hentries] at hw
    obtain ⟨hl, hp, hword⟩ := exists_pt h1.tables htop hw
    rw [if_pos rfl, Bool.or_true, allowWrite]
    obtain ⟨h2, hview2⟩ := h1.reflag (i := tableIndex (visitPage elf v) 12) hl rfl hw
      (w ||| pageWritable) (by rw [present_or_writable, hp]) (leafAddr_or_writable w)
    rw [hword]
    refine ⟨h2, hview2.trans ?_⟩
    have hpath : [tableIndex (visitPage elf v) 39, tableIndex (visitPage elf v) 30,
        tableIndex (visitPage elf v) 21] ++ [tableIndex (visitPage elf v) 12] =
          pagePath (visitPage elf v) := rfl
    rw [hpath, hview, update_idem, toCell, leafAddr_or_writable, writable_or_writable,
      noExec_or_writable, hcopy, setPage_mem_self, toCell]

/-- A successful round changes the view as the image says. -/
theorem Space.loadPage (h : Space top r s.vm) (htop : tableIndex (visitPage elf v) 39 ∈ top)
    (hrun : loadPage r elf (elf.phdr v.1) v.2 s = (true, s')) :
    Space top r s'.vm ∧ view top r s'.vm = loadCell elf (view top r s.vm) v := by
  have hpage : visitPage elf v = (elf.phdr v.1).page v.2 := rfl
  rw [Elf.loadPage] at hrun
  rw [← hpage] at hrun
  have hphys : vmmGetPhys s.vm r (visitPage elf v) =
      ((entryAt top s.vm.mem r (pagePath (visitPage elf v))).map leafAddr).getD 0 :=
    vmmGetPhys_eq_entryAt h.tables.frame htop
  by_cases hexists : vmmGetPhys s.vm r (visitPage elf v) = 0
  · rw [if_neg (not_not_intro hexists)] at hrun
    rcases halloc : s.vm.allocPage with ⟨phys, vm1⟩
    rw [halloc] at hrun
    dsimp only at hrun
    rcases allocPage_spec h.tables.ok halloc with ⟨rfl, -⟩ | ⟨hne, hmem, ht⟩
    · rw [if_pos rfl] at hrun
      cases (mk.inj hrun).1
    · rw [if_neg hne, Elf.mapNew, copyFile_fill] at hrun
      have hnone : entryAt top s.vm.mem r (pagePath (visitPage elf v)) = none := by
        cases hw : entryAt top s.vm.mem r (pagePath (visitPage elf v)) with
        | none => rfl
        | some w =>
          rw [hphys, hw, map_some, getD_some] at hexists
          exact absurd hexists ((h.frames _ w hw).1.1.ne_zero h.tables.ok)
      split at hrun
      · next vm' hmap =>
        cases hrun
        obtain ⟨h', hview⟩ := h.mapNew hmap ht (fun x hx => by
          rw [setPage_mem_of_ne _ hx, setPage_mem_of_ne _ hx, hmem]) htop
          (present_flags _) (leafAddr_flags _)
        refine ⟨h', hview.trans ?_⟩
        have hcell : view top r s.vm (pagePath (visitPage elf v)) = none := by
          rw [view, hnone, map_none]
        rw [loadCell, hcell, visit, setPage_mem_self, setPage_mem_self, writable_flags,
          noExec_flags]
      · cases (mk.inj hrun).1
  · rw [if_pos hexists] at hrun
    cases hw : entryAt top s.vm.mem r (pagePath (visitPage elf v)) with
    | none =>
      rw [hphys, hw] at hexists
      exact absurd rfl hexists
    | some w =>
      rw [hphys, hw, map_some, getD_some] at hrun
      exact h.revisit htop hw (mk.inj hrun).2

end Round

/-! ## The loops -/

section Loops

variable {top : Finset (Fin 512)} {r : Addr} {elf : Buffer} {s s' : Loader} {vm : Vm}

theorem Space.loadPages {i : ℕ} (n p : ℕ) (h : Space top r s.vm)
    (htop : ∀ v ∈ (range' p n).map (Prod.mk i), tableIndex (visitPage elf v) 39 ∈ top)
    (hrun : loadPages r elf (elf.phdr i) n p s = (true, s')) :
    Space top r s'.vm ∧
      view top r s'.vm = ((range' p n).map (Prod.mk i)).foldl (loadCell elf) (view top r s.vm) := by
  induction n generalizing p s with
  | zero =>
    cases hrun
    exact ⟨h, rfl⟩
  | succ n ih =>
    rw [range'_succ, map_cons] at htop
    rw [Elf.loadPages] at hrun
    rcases hpage : Elf.loadPage r elf (elf.phdr i) p s with ⟨ok, s1⟩
    rw [hpage] at hrun
    cases ok with
    | false => cases (Prod.mk.inj hrun).1
    | true =>
      obtain ⟨h1, hview⟩ := h.loadPage (v := (i, p)) (htop _ mem_cons_self) hpage
      rw [range'_succ, map_cons, foldl_cons, ← hview]
      exact ih (p + 1) h1 (fun v hv => htop v (mem_cons_of_mem _ hv)) hrun

theorem Space.loadSegment {i : ℕ} (h : Space top r s.vm) (hload : (elf.phdr i).isLoad = true)
    (htop : ∀ v ∈ segVisits elf i, tableIndex (visitPage elf v) 39 ∈ top)
    (hrun : loadSegment r elf (elf.phdrOff i) (elf.phdr i) s = (true, s')) :
    Space top r s'.vm ∧
      view top r s'.vm = (segVisits elf i).foldl (loadCell elf) (view top r s.vm) := by
  rw [segVisits, if_pos hload, range_eq_range'] at htop ⊢
  rw [Elf.loadSegment] at hrun
  by_cases hv : userAddrMax ≤ (elf.phdr i).pVaddr
  · rw [if_pos hv] at hrun
    cases (Prod.mk.inj hrun).1
  · rw [if_neg hv] at hrun
    by_cases hm : userAddrMax < (elf.phdr i).pVaddr + (elf.phdr i).pMemsz
    · rw [if_pos hm] at hrun
      cases (Prod.mk.inj hrun).1
    · rw [if_neg hm] at hrun
      generalize hs0 : Loader.note _ (.read (elf.phdrOff i + 4) 4) = s0 at hrun
      have hvm : s0.vm = s.vm := by
        rw [← hs0]
        rfl
      rw [← hvm] at h ⊢
      exact Space.loadPages (elf.phdr i).pageCount 0 h htop hrun

theorem Space.loadSegments (n i : ℕ) (h : Space top r s.vm)
    (htop : ∀ v ∈ (range' i n).flatMap (segVisits elf), tableIndex (visitPage elf v) 39 ∈ top)
    (hrun : loadSegments r elf n i s = (true, s')) :
    Space top r s'.vm ∧ view top r s'.vm =
      ((range' i n).flatMap (segVisits elf)).foldl (loadCell elf) (view top r s.vm) := by
  induction n generalizing i s with
  | zero =>
    cases hrun
    exact ⟨h, rfl⟩
  | succ n ih =>
    rw [range'_succ, flatMap_cons] at htop ⊢
    have hfirst := fun v hv => htop v (mem_append_left _ hv)
    have hrest := fun v hv => htop v (mem_append_right _ hv)
    rw [foldl_append]
    rw [Elf.loadSegments] at hrun
    have h0 : Space top r (s.note (.read (elf.phdrOff i) 4)).vm := h
    have hview0 : view top r (s.note (.read (elf.phdrOff i) 4)).vm = view top r s.vm := rfl
    generalize s.note (.read (elf.phdrOff i) 4) = s0 at hrun h0 hview0
    rw [← hview0]
    split_ifs at hrun with hload
    · rcases hseg : Elf.loadSegment r elf (elf.phdrOff i) (elf.phdr i) s0 with ⟨ok, s1⟩
      rw [hseg] at hrun
      cases ok with
      | false => cases (mk.inj hrun).1
      | true =>
        obtain ⟨h1, hview⟩ := h0.loadSegment hload hfirst hseg
        rw [← hview]
        exact ih (i + 1) h1 hrest hrun
    · rw [segVisits, if_neg hload, foldl_nil]
      exact ih (i + 1) h0 hrest hrun

/-- The address space is empty where the file has its pages. -/
structure EmptyFor (elf : Buffer) (cr3 : Addr) (vm : Vm) : Prop where
  ok : vm.pmm.Ok
  root : vm.pmm.InUse cr3
  empty : ∀ v ∈ visits elf, present (vm.mem cr3 (tableIndex (visitPage elf v) 39)) = false

/-- The entries of a PML4 without pages. -/
def emptyEntries (vm : Vm) (r : Addr) : Finset (Fin 512) :=
  Finset.univ.filter fun i => present (vm.mem r i) = false

theorem mem_emptyEntries {i : Fin 512} : i ∈ emptyEntries vm r ↔ present (vm.mem r i) = false := by
  simp [emptyEntries]

/-- A load that returns an entry point has gone through all segments. -/
theorem loadSegments_of_entry {entry : Addr} (hrun : elfLoadToTask r (some elf) vm = (entry, s'))
    (hentry : entry ≠ 0) :
    ∃ s0 s1, s0.vm = vm ∧ loadSegments r elf elf.ePhnum.toNat 0 s0 = (true, s1) ∧ s1.vm = s'.vm := by
  have hfail {s : Loader} {P : Prop} (h : ((0 : Addr), s) = (entry, s')) : P :=
    absurd (mk.inj h).1.symm hentry
  rw [elfLoadToTask] at hrun
  dsimp only at hrun
  -- the checks of the header
  iterate 4
    split at hrun
    · exact hfail hrun
  split at hrun
  · exact hfail hrun
  · next s1 hsegments =>
    refine ⟨_, s1, rfl, hsegments, ?_⟩
    rw [← (mk.inj hrun).2]
    rfl

/-- The loader refines the image: after a successful load, the pages under the entries that were
empty are those of the file. -/
theorem view_elfLoadToTask {entry : Addr} (h : EmptyFor elf r vm)
    (hrun : elfLoadToTask r (some elf) vm = (entry, s')) (hentry : entry ≠ 0) :
    Space (emptyEntries vm r) r s'.vm ∧ view (emptyEntries vm r) r s'.vm = elfImage elf := by
  obtain ⟨s0, s1, rfl, hsegments, hvm⟩ := loadSegments_of_entry hrun hentry
  have hframe := h.root.1.isFrame h.ok
  have hdead (i : Fin 512) (hi : i ∈ emptyEntries s0.vm r) : present (s0.vm.mem r i) = false :=
    mem_emptyEntries.mp hi
  have hnone := (tables_empty hframe hdead).2
  have h0 : Space (emptyEntries s0.vm r) r s0.vm := by
    refine ⟨Tables.start h.ok h.root hdead, fun q w hw => ?_, fun q q' w w' hw => ?_⟩
    · rw [hnone] at hw
      cases hw
    · rw [hnone] at hw
      cases hw
  have hview : view (emptyEntries s0.vm r) r s0.vm = fun _ => none := by
    funext q
    rw [view, hnone, map_none]
  obtain ⟨h1, hview1⟩ := h0.loadSegments elf.ePhnum.toNat 0 (fun v hv => by
    rw [← range_eq_range'] at hv
    exact mem_emptyEntries.mpr (h.empty v hv)) hsegments
  rw [hvm] at h1 hview1
  rw [hview, ← range_eq_range'] at hview1
  exact ⟨h1, hview1⟩

end Loops

end Crius.Elf
