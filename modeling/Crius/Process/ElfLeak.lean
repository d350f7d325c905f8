import Crius.Mm.Conservation
import Crius.Process.Rollback

/-!
# A segment past the user half

A segment whose end wraps is accepted and its pages run past the user half. The tables that
are made for them hang under an upper entry of the new PML4, where `vmm_free_user_pages` does
not look: when the memory ends there, the load fails and a table is never given back.
-/
namespace Crius.Mm

open Lib Radix Pmm Vm

variable {vm vm' : Vm} {pml4 virt phys t r : Addr} {flags : Word} {l : List Addr}

theorem allocPage_full (h : vm.pmm.Counted) (hfree : vm.pmm.pagesFree = 0) :
    vm.allocPage = (0, vm) := by
  cases hscan : vm.pmm.scan with
  | none => rw [allocPage, pmmAllocPage, hscan]
  | some i =>
    obtain ⟨hi, hbit⟩ := scan_eq_some h.1 hscan
    have hclear : (vm.pmm.take i).clearBits + 1 = vm.pmm.clearBits := clearBits_set hi hbit rfl
    have hcount := h.2
    omega

/-- Memory ends after the first table of the walk. -/
theorem vmmMapPage_short (hroot : nextTable pml4 (tableIndex virt 39) flags vm = (some t, vm'))
    (hblank : present (vm'.mem t (tableIndex virt 30)) = false) (h : vm'.pmm.Counted)
    (hfree : vm'.pmm.pagesFree = 0) : vmmMapPage pml4 virt phys flags vm = (false, vm') := by
  have hnext : nextTable t (tableIndex virt 30) flags vm' = (none, vm') := by
    simp only [nextTable, hblank, Bool.false_eq_true, if_false, allocPageTable,
      allocPage_full h hfree, if_true]
  simp only [vmmMapPage, hroot, hnext]

/-- `frames`, with tables that are searched as a whole, for evaluation. -/
def framesOf (mem : Addr → Page) : ℕ → Word → List Addr
  | 0, e => if present e then [leafAddr e] else []
  | ℓ + 1, e =>
    if present e then
      (List.finRange 512).flatMap (fun i => framesOf mem ℓ (mem (tableAddr e) i)) ++ [tableAddr e]
    else []

theorem frames_eq_framesOf (mem : Addr → Page) (ℓ : ℕ) (hℓ : ℓ ≤ 3) :
    frames shape mem ℓ = framesOf mem ℓ := by
  induction ℓ with
  | zero => rfl
  | succ ℓ ih =>
    funext e
    rw [frames_succ, framesUnder, indices_of_ne ℓ (by omega), ih (by omega), framesOf]

/-- The frames under a PML4 are freed, and the memory of other pages stays. -/
theorem vmmFreeUserPages_frames
    (hl : lowerHalf.flatMap (fun i => framesOf vm.mem 3 (vm.mem r i)) = l) (hr : l.count r = 0) :
    (vmmFreeUserPages r vm).pmm = l.foldl pmmFreePage vm.pmm ∧
      ∀ x, x ≠ r → (vmmFreeUserPages r vm).mem x = vm.mem x := by
  rw [← frames_eq_framesOf _ 3 le_rfl] at hl
  have hcount : l.count r = leavesUnder vm.mem 3 r lowerHalf r + tablesUnder vm.mem 3 r lowerHalf r := by
    rw [← hl]
    exact count_framesUnder r
  have hout : tablesUnder vm.mem 3 r (indices 3) r = 0 := by
    rw [indices_three]
    omega
  have hrun := foldl_freePml4Entry (indices 3) (nodup_indices 3) hout
  rw [indices_three, framesUnder, hl] at hrun
  rw [vmmFreeUserPages, hrun]
  exact ⟨rfl, fun x hx => setPage_mem_of_ne _ hx _⟩

end Crius.Mm

namespace Crius.Elf

open Mm

variable {cr3 t : Addr} {elf : Buffer} {seg : Phdr} {vm vm' : Vm} {p n : ℕ} {log : List Access}

/-- A page is taken and cleared. -/
def newPage (vm : Vm) : Vm := vm.allocPage.2.setPage vm.allocPage.1 fun _ => 0

/-- There is a page for the round, and its address is not mapped. -/
abbrev Fresh (cr3 : Addr) (seg : Phdr) (p : ℕ) (vm : Vm) : Prop :=
  vmmGetPhys vm cr3 (seg.page p) = 0 ∧ vm.allocPage.1 ≠ 0

/-- The page of the first round is mapped. -/
def firstRound (cr3 : Addr) (seg : Phdr) (vm : Vm) : Bool × Vm :=
  vmmMapPage cr3 (seg.page 0) vm.allocPage.1 seg.flags (newPage vm)

/-- A table is made for the page of the second round. -/
def secondRound (cr3 : Addr) (seg : Phdr) (vm : Vm) : Option Addr × Vm :=
  nextTable cr3 (tableIndex (seg.page 1) 39) seg.flags (newPage (firstRound cr3 seg vm).2)

theorem counted_newPage (h : vm.pmm.Counted) : (newPage vm).pmm.Counted := counted_alloc h

section

variable (hfile : seg.pFilesz = 0)

include hfile

/-- A round for a page that has no data. -/
theorem loadPage_new (h : Fresh cr3 seg p vm) : loadPage cr3 elf seg p ⟨vm, log⟩ =
    mapNew cr3 seg (seg.page p) vm.allocPage.1 ⟨newPage vm, log⟩ := by
  have hcopy (phys : Addr) (s : Loader) : copyFile elf seg (seg.page p) phys s = s := by
    unfold copyFile
    rw [if_neg]
    rw [hfile]
    decide
  simp only [loadPage, h.1, ne_eq, not_true_eq_false, if_false, if_neg h.2, hcopy]
  rfl

/-- Memory ends after the first table for the second page. -/
theorem loadPages_short (hc : vm.pmm.Counted) (h0 : Fresh cr3 seg 0 vm)
    (hmap : (firstRound cr3 seg vm).1 = true) (h1 : Fresh cr3 seg 1 (firstRound cr3 seg vm).2)
    (htable : (secondRound cr3 seg vm).1 = some t)
    (hblank : present ((secondRound cr3 seg vm).2.mem t (tableIndex (seg.page 1) 30)) = false)
    (hfree : (secondRound cr3 seg vm).2.pmm.pagesFree = 0) :
    ∃ s, loadPages cr3 elf seg (n + 1 + 1) 0 ⟨vm, log⟩ = (false, s) ∧
      s.vm = (secondRound cr3 seg vm).2.freePage (firstRound cr3 seg vm).2.allocPage.1 := by
  have hc1 : (firstRound cr3 seg vm).2.pmm.Counted :=
    vmmMapPage_pmm (fun _ => counted_alloc) _ _ _ _ (counted_newPage hc)
  have hc2 : (secondRound cr3 seg vm).2.pmm.Counted :=
    nextTable_pmm (fun _ => counted_alloc) _ _ _ (counted_newPage hc1)
  have hfirst : loadPage cr3 elf seg 0 ⟨vm, log⟩ = _ := loadPage_new hfile h0
  have hrun : firstRound cr3 seg vm = (true, _) := Prod.ext hmap rfl
  rw [mapNew, show vmmMapPage cr3 _ _ _ _ = _ from hrun] at hfirst
  have hsecond : loadPage cr3 elf seg 1 ⟨_, .page (seg.page 0) :: log⟩ = _ := loadPage_new hfile h1
  have hnext : secondRound cr3 seg vm = (some t, _) := Prod.ext htable rfl
  rw [mapNew, vmmMapPage_short hnext hblank hc2 hfree] at hsecond
  rw [loadPages, hfirst]
  dsimp only
  rw [loadPages, hsecond]
  exact ⟨_, rfl, rfl⟩

end

/-- A file with one segment that passes the checks, when the load of its pages fails. -/
theorem elfLoadToTask_one (h : elf.HeaderOk) (hone : elf.ePhnum.toNat = 1)
    (hload : (elf.phdr 0).isLoad = true) (hstart : ¬ userAddrMax ≤ (elf.phdr 0).pVaddr)
    (hend : ¬ userAddrMax < (elf.phdr 0).pVaddr + (elf.phdr 0).pMemsz)
    (hpages : ∀ log, ∃ s, loadPages cr3 elf (elf.phdr 0) (elf.phdr 0).pageCount 0 ⟨vm, log⟩ =
      (false, s) ∧ s.vm = vm') :
    ∃ s, elfLoadToTask cr3 (some elf) vm = (0, s) ∧ s.vm = vm' := by
  obtain ⟨hsize, hmagic, hmachine, hheaders⟩ := h
  obtain ⟨s, hrun, hs⟩ := hpages _
  refine ⟨s, ?_, hs⟩
  simp only [elfLoadToTask, if_neg (BitVec.not_lt.mpr hsize), hmagic, Bool.true_eq_false, if_false,
    hmachine, ne_eq, not_true_eq_false, if_neg (BitVec.not_lt.mpr hheaders), hone, loadSegments, hload,
    if_true, loadSegment, if_neg hstart, if_neg hend, Loader.note]
  rw [hrun]

end Crius.Elf

namespace Crius.Process

open Mm Elf Pmm

variable {k : Kernel (Vm × Unit)} {data path : List UInt8} {argv : List (List UInt8)} {r : Addr}
  {vm : Vm}

/-- An exec that fails in the loader. -/
theorem doExec_oneFile {s : Loader} (hsize : data.length ≤ maxElfSize)
    (hcreate : vmmCreatePml4 k.env.1 = (r, vm)) (hr : r ≠ 0)
    (hload : elfLoadToTask r (imageOf data fun _ => 0) (vmmMapKernel k.cr3 r vm) = (0, s)) :
    doExec (vmServices (oneFile data)) k path argv =
      (false, { k with env := ((vmmFreeUserPages r s.vm).freePage r, ()) }) := by
  have hbuf : ¬ (0x1000 : ℕ) = 0 := by decide
  have hzero : (0 : Addr).toNat = 0 := rfl
  simp only [doExec, loadImage, readImage, buildSpace, Process.loadSegments, discardSpace, vmServices,
    oneFile, if_neg (Nat.not_lt.mpr hsize), if_neg hbuf, hcreate, if_neg hr, hload, hzero, if_true]

/-- The bytes of `wrapSegment`. -/
def wrapFile : List UInt8 :=
  (List.range 120).map fun i => ⟨wrapSegment.byte (BitVec.ofNat 64 i)⟩

/-- The buffer that the file is read to. -/
def wrapImage : Buffer where
  byte off := (wrapFile[off.toNat]?.map UInt8.toBitVec).getD 0
  size := BitVec.ofNat 64 wrapFile.length
  object := by decide

theorem imageOf_wrapFile : imageOf wrapFile (fun _ => 0) = some wrapImage :=
  dif_pos (by decide)

theorem counted_lowVm : lowVm.pmm.Counted := by
  refine ⟨Nat.zero_le _, ?_⟩
  have hset : (Finset.range maxPages).filter (fun i => lowVm.pmm.bitmap i = false) =
      Finset.Icc 1 7 := by
    ext i
    simp only [Finset.mem_filter, Finset.mem_range, lowVm, decide_eq_false_iff_not,
      Finset.mem_Icc, maxPages]
    omega
  rw [clearBits, hset]
  decide

/-- The space that the file is loaded to. -/
def wrapSpace : Vm := vmmMapKernel 0x100000 0x101000 (vmmCreatePml4 lowVm).2

/-- The memory when the load fails: six of the seven pages were taken for the space. -/
def wrapFailed : Vm := (secondRound 0x101000 (wrapImage.phdr 0) wrapSpace).2.freePage
  (firstRound 0x101000 (wrapImage.phdr 0) wrapSpace).2.allocPage.1

theorem elfLoadToTask_wrapFile : ∃ s, elfLoadToTask 0x101000 (imageOf wrapFile fun _ => 0)
    wrapSpace = (0, s) ∧ s.vm = wrapFailed := by
  have hcounted : wrapSpace.pmm.Counted := by
    rw [wrapSpace, (vmmMapKernel_spec _ _ _).1]
    exact allocPageTable_pmm (fun _ => counted_alloc) counted_lowVm
  have hheader : wrapImage.HeaderOk := by
    unfold Buffer.HeaderOk
    decide +kernel
  have hcount : (wrapImage.phdr 0).pageCount = 4503565267632127 + 1 + 1 := by decide
  rw [imageOf_wrapFile]
  refine elfLoadToTask_one hheader (by decide) (by decide) (by decide) (by decide) fun log => ?_
  rw [hcount]
  exact loadPages_short (t := 0x107000) (by decide) hcounted (by decide +kernel) (by decide +kernel)
    (by decide +kernel) (by decide +kernel) (by decide +kernel) (by decide +kernel)

/-- The memory after the exec. -/
def lostVm : Vm := (vmmFreeUserPages 0x101000 wrapFailed).freePage 0x101000

theorem doExec_wrapFile (path : List UInt8) (argv : List (List UInt8))
    (henv : k.env = (lowVm, ())) (hcr3 : k.cr3 = 0x100000) :
    doExec (vmServices (oneFile wrapFile)) k path argv = (false, { k with env := (lostVm, ()) }) := by
  obtain ⟨s, hload, hs⟩ := elfLoadToTask_wrapFile
  have hroot : (vmmCreatePml4 lowVm).1 = 0x101000 := by decide +kernel
  have hcreate : vmmCreatePml4 k.env.1 = (0x101000, (vmmCreatePml4 lowVm).2) := by
    rw [henv, ← hroot]
  rw [wrapSpace, ← hcr3] at hload
  rw [doExec_oneFile (by decide) hcreate (by decide) hload, hs, lostVm]

/-- The table of the second round is still in use, and the PML4 of the task is bare. -/
theorem lostVm_spec : lostVm.pmm.InUse 0x107000 ∧ Bare lostVm.mem 0x100000 := by
  have hframes : lowerHalf.flatMap (fun i => framesOf wrapFailed.mem 3 (wrapFailed.mem 0x101000 i)) =
    [0x102000, 0x105000, 0x104000, 0x103000] := by decide +kernel
  obtain ⟨hpmm, hmem⟩ := vmmFreeUserPages_frames hframes (by decide)
  have hbare : ∀ i : Fin 512, i.val < 256 → present (wrapFailed.mem 0x100000 i) = false := by
    decide +kernel
  constructor
  · rw [lostVm, Vm.freePage_pmm, hpmm]
    exact ⟨⟨7, by decide, by decide +kernel⟩, by decide +kernel⟩
  · intro i hi
    rw [lostVm, Vm.freePage_mem, hmem _ (by decide)]
    exact hbare i hi

end Crius.Process
