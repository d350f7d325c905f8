import Crius.Process.ElfExec
import Crius.Mm.SmallSpace

/-!
# What the loader touches

The checks of the loader are sums that can wrap, and `p_offset` and `p_filesz` are not
checked at all. `Trusted` is what a file has to satisfy for the loader to stay inside: the
program headers, the pages of every segment that is reached and the bytes that these pages
take from the file.

That nothing less is enough is seen in an address space in which every user page is mapped
already, so that no allocation can stop the loader early.
-/
namespace Crius.Elf

open Mm BitVec List Nat Function Option Vm Phdr

/-- The access stays inside of the buffer and of the user half. -/
def Access.Inside (size : Addr) : Access → Prop
  | .read off len => off.toNat + len ≤ size.toNat
  | .page virt => virt < userAddrMax

def Confined (size : Addr) (log : List Access) : Prop := ∀ a ∈ log, a.Inside size

namespace Phdr

variable (seg : Phdr)

/-- The range check, in the loader's arithmetic. -/
def Accepted : Prop := seg.pVaddr < userAddrMax ∧ seg.pVaddr + seg.pMemsz ≤ userAddrMax

/-- The end of the segment is a user address, or its size is so close to `2^64` that the
number of pages wraps as well and at most one is loaded. -/
def InUserRange : Prop :=
  seg.pVaddr.toNat + seg.pMemsz.toNat ≤ userAddrMax.toNat ∨
    2 ^ 64 ≤ seg.pMemsz.toNat + seg.pVaddr.toNat % 4096 + 4095

/-- The file offset, from the start of the segment, of the data of page `p`. -/
def fileStart (p : Nat) : Nat := p * 4096 - seg.pVaddr.toNat % 4096

/-- The part of the file that the pages of the segment take is inside of the buffer. -/
def InFile (size : Addr) : Prop :=
  0 < seg.pFilesz.toNat → 0 < seg.pageCount →
    seg.pOffset.toNat + min seg.pFilesz.toNat (seg.fileStart seg.pageCount) ≤ size.toNat

end Phdr

namespace Buffer

variable (elf : Buffer)

/-- The checks before the program headers. -/
def HeaderOk : Prop :=
  64 ≤ elf.size ∧ elf.hasMagic = true ∧ elf.eMachine = 0x3E ∧
    elf.ePhoff + elf.ePhnum.setWidth 64 * 56 ≤ elf.size

/-- No segment before header `i` is refused. -/
def Reaches (i : Nat) : Prop := ∀ j < i, (elf.phdr j).isLoad = true → (elf.phdr j).Accepted

/-- The condition on a file. -/
structure Trusted : Prop where
  headers : 0 < elf.ePhnum.toNat → elf.ePhoff.toNat + 56 * elf.ePhnum.toNat < 2 ^ 64
  segments : ∀ i < elf.ePhnum.toNat, elf.Reaches i → (elf.phdr i).isLoad = true →
    (elf.phdr i).Accepted → (elf.phdr i).InUserRange ∧ (elf.phdr i).InFile elf.size

end Buffer

/-! ## Arithmetic of a segment -/

section Arithmetic

variable (seg : Phdr)

theorem pageOff_toNat : seg.pageOff.toNat = seg.pVaddr.toNat % 4096 := by
  rw [pageOff, toNat_and]
  exact and_two_pow_sub_one_eq_mod _ 12

theorem firstPage_toNat : seg.firstPage.toNat = seg.pVaddr.toNat - seg.pVaddr.toNat % 4096 :=
  tableAddr_toNat seg.pVaddr

theorem pageCount_eq : seg.pageCount =
    ((seg.pMemsz.toNat + seg.pVaddr.toNat % 4096) % 2 ^ 64 + 4095) % 2 ^ 64 / 4096 := by
  rw [pageCount, toNat_udiv, toNat_add, totalBytes, toNat_add,
    pageOff_toNat]
  rfl

variable {seg} {p : Nat}

theorem page_toNat (h : seg.firstPage.toNat + p * 4096 < 2 ^ 64) :
    (seg.page p).toNat = seg.firstPage.toNat + p * 4096 := by
  have hmul : (BitVec.ofNat 64 p * 0x1000).toNat = p * 4096 := by
    rw [BitVec.toNat_mul, BitVec.toNat_ofNat, mod_eq_of_lt (show p < 2 ^ 64 by omega)]
    exact mod_eq_of_lt (show p * 4096 < 2 ^ 64 by omega)
  rw [page, BitVec.toNat_add, hmul]
  exact mod_eq_of_lt h

theorem userAddrMax_toNat : userAddrMax.toNat = 2 ^ 47 := by decide

theorem page_lt (h : seg.firstPage.toNat + p * 4096 < 2 ^ 47) : seg.page p < userAddrMax := by
  rw [lt_def, page_toNat (by omega), userAddrMax_toNat]
  exact h

theorem Phdr.Accepted.toNat (h : seg.Accepted) : seg.pVaddr.toNat < 2 ^ 47 ∧
    (seg.pVaddr.toNat + seg.pMemsz.toNat) % 2 ^ 64 ≤ 2 ^ 47 := by
  obtain ⟨hlt, hle⟩ := h
  rw [lt_def, userAddrMax_toNat] at hlt
  rw [le_def, toNat_add, userAddrMax_toNat] at hle
  exact ⟨hlt, hle⟩

theorem Phdr.InUserRange.below (hr : seg.InUserRange) (ha : seg.Accepted) (hp : p < seg.pageCount) :
    seg.firstPage.toNat + p * 4096 < 2 ^ 47 := by
  have hacc := ha.toNat
  rw [InUserRange, userAddrMax_toNat] at hr
  rw [pageCount_eq] at hp
  rw [firstPage_toNat]
  omega

/-- Past a wrapped sum the first page above the user half is one of the segment. -/
theorem exists_page_above (hr : ¬ seg.InUserRange) (ha : seg.Accepted) :
    ∃ q < seg.pageCount, seg.firstPage.toNat + q * 4096 = 2 ^ 47 := by
  have hacc := ha.toNat
  rw [Phdr.InUserRange, userAddrMax_toNat] at hr
  refine ⟨(2 ^ 47 - seg.firstPage.toNat) / 4096, ?_, ?_⟩
  · rw [pageCount_eq, firstPage_toNat]
    omega
  · rw [firstPage_toNat]
    omega

/-- The read of the bytes that page `p` takes. -/
abbrev Phdr.fileRead (seg : Phdr) (p : Nat) : Access :=
  .read (seg.pOffset + BitVec.ofNat 64 (seg.fileStart p))
    (min seg.pFilesz.toNat (seg.fileStart (p + 1)) - seg.fileStart p)

theorem fileStart_succ (seg : Phdr) (p : Nat) : seg.fileStart (p + 1) =
    seg.fileStart p + (4096 - if p = 0 then seg.pVaddr.toNat % 4096 else 0) := by
  unfold fileStart
  split <;> omega

end Arithmetic

/-! ## One page -/

section Page

variable {cr3 : Addr} {elf : Buffer} {seg : Phdr} {p : Nat} {phys : Addr} {s : Loader}

theorem copyBytes_vm (elf : Buffer) (seg : Phdr) (virt phys a b : Addr) (s : Loader) :
    ∃ page, (copyBytes elf seg virt phys a b s).vm = s.vm.setPage phys page := by
  unfold copyBytes
  split
  · exact ⟨_, rfl⟩
  · exact ⟨s.vm.mem phys, by rw [setPage, update_eq_self]⟩

theorem copyFile_vm (elf : Buffer) (seg : Phdr) (virt phys : Addr) (s : Loader) :
    ∃ page, (copyFile elf seg virt phys s).vm = s.vm.setPage phys page := by
  unfold copyFile
  split
  · split
    · exact copyBytes_vm ..
    · exact copyBytes_vm ..
  · exact ⟨s.vm.mem phys, by rw [setPage, update_eq_self]⟩

/-- Page `p` takes the bytes from `fileStart p` to `fileStart (p + 1)`, as far as the
segment has them. -/
theorem copyFile_log (hp : seg.firstPage.toNat + p * 4096 < 2 ^ 64) :
    (copyFile elf seg (seg.page p) phys s).log =
      if seg.fileStart p < seg.pFilesz.toNat then
        .page (seg.page p) :: seg.fileRead p :: s.log
      else s.log := by
  have hpage := page_toNat hp
  have hfirst := firstPage_toNat seg
  have hcopy (a b : Addr) (hb : b.toNat = seg.fileStart p)
      (ha : (0x1000 - a).toNat = seg.fileStart (p + 1) - seg.fileStart p) :
      (copyBytes elf seg (seg.page p) phys a b s).log =
        if seg.fileStart p < seg.pFilesz.toNat then .page (seg.page p) :: seg.fileRead p :: s.log
        else s.log := by
    have hlt : b < seg.pFilesz ↔ seg.fileStart p < seg.pFilesz.toNat := by
      rw [BitVec.lt_def, hb]
    have hoff : BitVec.ofNat 64 (seg.fileStart p) = b := by
      rw [← hb, BitVec.ofNat_toNat, BitVec.setWidth_eq]
    simp only [copyBytes, hlt]
    split
    · rename_i hmore
      have hsub : (seg.pFilesz - b).toNat = seg.pFilesz.toNat - seg.fileStart p := by
        rw [BitVec.toNat_sub_of_le (BitVec.le_of_lt (hlt.mpr hmore)), hb]
      have hlen : min (seg.pFilesz - b).toNat (0x1000 - a).toNat =
          min seg.pFilesz.toNat (seg.fileStart (p + 1)) - seg.fileStart p := by
        rw [hsub, ha]
        omega
      simp only [fileRead, hoff, hlen]
    · rfl
  have hstep := fileStart_succ seg p
  have hstart : seg.fileStart p = p * 4096 - seg.pVaddr.toNat % 4096 := rfl
  unfold copyFile
  by_cases hfile : 0 < seg.pFilesz
  · rw [if_pos hfile]
    by_cases hle : seg.pVaddr ≤ seg.page p
    · rw [if_pos hle]
      apply hcopy
      · rw [BitVec.toNat_sub_of_le hle, hpage, hstart]
        rw [BitVec.le_def] at hle
        omega
      · rw [BitVec.le_def] at hle
        have h0 : (0x1000 - 0 : Addr).toNat = 4096 := by decide
        rw [h0, hstep]
        split <;> omega
    · rw [if_neg hle]
      rw [BitVec.le_def] at hle
      have hzero : p = 0 := by omega
      apply hcopy
      · rw [hstart, hzero]
        simp
      · rw [BitVec.toNat_sub_of_le, pageOff_toNat, hstep, if_pos hzero]
        · show 4096 - _ = _
          omega
        · rw [BitVec.le_def, pageOff_toNat]
          show _ ≤ 4096
          omega
  · rw [if_neg hfile, if_neg]
    rw [BitVec.lt_def] at hfile
    intro hlt
    exact hfile (lt_of_le_of_lt (zero_le _) hlt)

end Page

/-! ## The log only grows -/

section Grow

variable (cr3 : Addr) (elf : Buffer) (seg : Phdr)

theorem suffix_copyFile (virt phys : Addr) (s : Loader) :
    s.log <:+ (copyFile elf seg virt phys s).log := by
  have hcopy (a b : Addr) : s.log <:+ (copyBytes elf seg virt phys a b s).log := by
    unfold copyBytes
    split
    · exact suffix_append [_, _] _
    · exact suffix_refl _
  unfold copyFile
  split
  · split
    · exact hcopy _ _
    · exact hcopy _ _
  · exact suffix_refl _

theorem log_mapNew (virt phys : Addr) (s : Loader) :
    (mapNew cr3 seg virt phys s).2.log = .page virt :: s.log := by
  unfold mapNew
  split <;> rfl

theorem suffix_loadPage (p : Nat) (s : Loader) : s.log <:+ (loadPage cr3 elf seg p s).2.log := by
  simp only [loadPage]
  split
  · have hcopy := suffix_copyFile elf seg (seg.page p) (vmmGetPhys s.vm cr3 (seg.page p)) s
    split
    · exact hcopy.trans (suffix_cons _ _)
    · exact hcopy
  · split
    · exact suffix_refl _
    · rw [log_mapNew]
      have hcopy := suffix_copyFile elf seg (seg.page p) s.vm.allocPage.1
        ⟨s.vm.allocPage.2.setPage s.vm.allocPage.1 fun _ => 0, s.log⟩
      exact hcopy.trans (suffix_cons _ _)

end Grow

theorem accepted_of_not {seg : Phdr} (h1 : ¬ userAddrMax ≤ seg.pVaddr)
    (h2 : ¬ userAddrMax < seg.pVaddr + seg.pMemsz) : seg.Accepted :=
  ⟨BitVec.not_le.mp h1, BitVec.not_lt.mp h2⟩

variable {s : Loader} {elf : Buffer} {i : Nat}

theorem accepted_of_loadSegment {seg : Phdr} {off cr3 : Addr} {s' : Loader}
    (h : loadSegment cr3 elf off seg s = (true, s')) : seg.Accepted := by
  simp only [loadSegment] at h
  by_cases hv : userAddrMax ≤ seg.pVaddr
  · simp [hv] at h
  · by_cases hm : userAddrMax < seg.pVaddr + seg.pMemsz
    · simp [hv, hm] at h
    · exact accepted_of_not hv hm

theorem Buffer.Reaches.succ (h : elf.Reaches i)
    (hi : (elf.phdr i).isLoad = true → (elf.phdr i).Accepted) : elf.Reaches (i + 1) := by
  intro j hj
  rcases Nat.lt_succ_iff_lt_or_eq.mp hj with hlt | rfl
  · exact h j hlt
  · exact hi

/-! ## An invariant of the loader -/

/-- Header `i` is reached and passes the range check. -/
structure Buffer.Loads (elf : Buffer) (i : Nat) : Prop where
  index : i < elf.ePhnum.toNat
  reached : elf.Reaches i
  load : (elf.phdr i).isLoad = true
  accepted : (elf.phdr i).Accepted

/-- What the reads of the headers and every page of a loaded segment keep. -/
structure Invariant (cr3 : Addr) (elf : Buffer) (Inv : Loader → Prop) : Prop where
  kind : ∀ i < elf.ePhnum.toNat, ∀ s, Inv s → Inv (s.note (.read (elf.phdrOff i) 4))
  field : ∀ i < elf.ePhnum.toNat, ∀ k len, k + len ≤ 56 → ∀ s, Inv s →
    Inv (s.note (.read (elf.phdrOff i + BitVec.ofNat 64 k) len))
  page : ∀ i, elf.Loads i → ∀ p < (elf.phdr i).pageCount, ∀ s, Inv s →
    Inv (loadPage cr3 elf (elf.phdr i) p s).2

namespace Invariant

variable {cr3 : Addr} {elf : Buffer} {Inv : Loader → Prop} (hinv : Invariant cr3 elf Inv)

include hinv

theorem loadPages (hi : elf.Loads i) (n p : Nat) (hn : p + n ≤ (elf.phdr i).pageCount) (h : Inv s) :
    Inv (loadPages cr3 elf (elf.phdr i) n p s).2 := by
  induction n generalizing p s with
  | zero => exact h
  | succ n ih =>
    have hpage := hinv.page i hi p (by omega) s h
    rcases hrun : loadPage cr3 elf (elf.phdr i) p s with ⟨ok, s'⟩
    rw [hrun] at hpage
    rw [Elf.loadPages, hrun]
    cases ok with
    | false => exact hpage
    | true => exact ih (p + 1) (by omega) hpage

theorem loadSegment (hi : i < elf.ePhnum.toNat) (hreach : elf.Reaches i)
    (hload : (elf.phdr i).isLoad = true) (h : Inv s) :
    Inv (loadSegment cr3 elf (elf.phdrOff i) (elf.phdr i) s).2 := by
  have h1 := hinv.field i hi 16 8 (by decide) s h
  rw [Elf.loadSegment]
  by_cases hv : userAddrMax ≤ (elf.phdr i).pVaddr
  · rw [if_pos hv]
    exact h1
  · have h2 := hinv.field i hi 40 8 (by decide) _ h1
    rw [if_neg hv]
    by_cases hm : userAddrMax < (elf.phdr i).pVaddr + (elf.phdr i).pMemsz
    · rw [if_pos hm]
      exact h2
    · have h3 := hinv.field i hi 32 8 (by decide) _ h2
      have h4 := hinv.field i hi 8 8 (by decide) _ h3
      have h5 := hinv.field i hi 4 4 (by decide) _ h4
      rw [if_neg hm]
      exact hinv.loadPages ⟨hi, hreach, hload, accepted_of_not hv hm⟩ _ 0 (by omega) h5

/-- One header and those after it. -/
theorem loadSegments_succ {n : Nat} (hi : i < elf.ePhnum.toNat) (hreach : elf.Reaches i)
    (hrest : elf.Reaches (i + 1) → ∀ s, Inv s → Inv (Elf.loadSegments cr3 elf n (i + 1) s).2)
    (h : Inv (s.note (.read (elf.phdrOff i) 4))) :
    Inv (Elf.loadSegments cr3 elf (n + 1) i s).2 := by
  rw [Elf.loadSegments]
  generalize s.note (.read (elf.phdrOff i) 4) = s0 at h
  split
  · rename_i hload
    have hseg := hinv.loadSegment hi hreach hload h
    rcases hrun : Elf.loadSegment cr3 elf (elf.phdrOff i) (elf.phdr i) s0 with ⟨ok, s'⟩
    rw [hrun] at hseg
    cases ok with
    | false => exact hseg
    | true => exact hrest (hreach.succ fun _ => accepted_of_loadSegment hrun) s' hseg
  · rename_i hload
    exact hrest (hreach.succ fun hl => absurd hl hload) s0 h

theorem loadSegments (n i : Nat) (hn : i + n = elf.ePhnum.toNat) (hreach : elf.Reaches i)
    (h : Inv s) : Inv (loadSegments cr3 elf n i s).2 := by
  induction n generalizing i s with
  | zero => exact h
  | succ n ih =>
    exact hinv.loadSegments_succ (by omega) hreach (fun hnext s hs => ih (i + 1) (by omega) hnext hs)
      (hinv.kind i (by omega) s h)

end Invariant

theorem invariant_suffix (cr3 : Addr) (elf : Buffer) (l : List Access) :
    Invariant cr3 elf fun s => l <:+ s.log := by
  constructor
  · intro i _ s h
    exact h.trans (suffix_cons _ _)
  · intro i _ k len _ s h
    exact h.trans (suffix_cons _ _)
  · intro i _ p _ s h
    exact h.trans (suffix_loadPage cr3 elf (elf.phdr i) p s)

/-! ## A trusted file -/

section Trusted

variable {seg : Phdr} {size : Addr} {p : Nat} {s : Loader}

theorem confined_note {a : Access} (h : Confined size s.log) (ha : a.Inside size) :
    Confined size (s.note a).log := by
  intro b hb
  rcases mem_cons.mp hb with rfl | hb
  · exact ha
  · exact h b hb

theorem Confined.of_suffix {l l' : List Access} (h : Confined size l') (hs : l <:+ l') :
    Confined size l := fun a ha => h a (hs.subset ha)

theorem fileStart_le (hp : p < seg.pageCount) : seg.fileStart (p + 1) ≤ seg.fileStart seg.pageCount := by
  unfold fileStart
  omega

variable (hr : seg.InUserRange) (ha : seg.Accepted) (hp : p < seg.pageCount)

include hr ha hp

theorem inside_page : (Access.page (seg.page p)).Inside size := by
  exact page_lt (hr.below ha hp)

variable (hf : seg.InFile size)

include hf

theorem confined_copyFile (elf : Buffer) (phys : Addr) (h : Confined size s.log) :
    Confined size (copyFile elf seg (seg.page p) phys s).log := by
  have hbelow := hr.below ha hp
  rw [copyFile_log (by omega)]
  split
  · rename_i hmore
    have hend := hf (by omega) (by omega)
    have hmono := fileStart_le hp
    have hread : (seg.fileRead p).Inside size := by
      have hstep := fileStart_succ seg p
      have hsum : seg.pOffset.toNat + seg.fileStart p < 2 ^ 64 := by
        have := size.isLt
        omega
      show _ + _ ≤ _
      rw [BitVec.toNat_add, BitVec.toNat_ofNat, mod_eq_of_lt (by omega : seg.fileStart p < 2 ^ 64),
        mod_eq_of_lt hsum]
      omega
    exact confined_note (s := s.note _) (confined_note h hread) (inside_page hr ha hp)
  · exact h

theorem confined_loadPage (cr3 : Addr) (elf : Buffer) (h : Confined size s.log) :
    Confined size (loadPage cr3 elf seg p s).2.log := by
  simp only [loadPage]
  split
  · have hcopy := confined_copyFile hr ha hp hf elf (vmmGetPhys s.vm cr3 (seg.page p)) h
    split
    · exact confined_note hcopy (inside_page hr ha hp)
    · exact hcopy
  · split
    · exact h
    · rw [log_mapNew]
      exact confined_note (confined_copyFile hr ha hp hf elf _ h) (inside_page hr ha hp)

end Trusted

section Headers

variable {elf : Buffer}

/-- A field of a header that lies in the buffer. -/
theorem inside_field {off size : Addr} (hoff : off.toNat + 56 ≤ size.toNat) (k len : Nat)
    (hk : k + len ≤ 56) : (Access.read (off + BitVec.ofNat 64 k) len).Inside size := by
  have := size.isLt
  show _ + _ ≤ _
  rw [BitVec.toNat_add, BitVec.toNat_ofNat, mod_eq_of_lt (by omega : k < 2 ^ 64),
    mod_eq_of_lt (by omega)]
  omega

theorem phdrOff_toNat (h : elf.ePhoff.toNat + 56 * i < 2 ^ 64) :
    (elf.phdrOff i).toNat = elf.ePhoff.toNat + 56 * i := by
  rw [Buffer.phdrOff, toNat_add, toNat_ofNat,
    mod_eq_of_lt (by omega : 56 * i < 2 ^ 64), mod_eq_of_lt h]

/-- The end of the program headers, as the check computes it. -/
theorem headers_toNat : (elf.ePhoff + elf.ePhnum.setWidth 64 * 56).toNat =
    (elf.ePhoff.toNat + 56 * elf.ePhnum.toNat) % 2 ^ 64 := by
  have hmul : (elf.ePhnum.setWidth 64 * 56).toNat = 56 * elf.ePhnum.toNat := by
    rw [toNat_mul, toNat_setWidth]
    show elf.ePhnum.toNat % 2 ^ 64 * 56 % 2 ^ 64 = _
    omega
  rw [toNat_add, hmul]

theorem Buffer.Trusted.headers_le (t : elf.Trusted) (hok : elf.HeaderOk)
    (hnum : 0 < elf.ePhnum.toNat) : elf.ePhoff.toNat + 56 * elf.ePhnum.toNat ≤ elf.size.toNat := by
  have hle := hok.2.2.2
  rw [le_def, headers_toNat, mod_eq_of_lt (t.headers hnum)] at hle
  exact hle

theorem Buffer.Trusted.confined (t : elf.Trusted) (hok : elf.HeaderOk) (cr3 : Addr) :
    Invariant cr3 elf fun s => Confined elf.size s.log := by
  have hoff (i : Nat) (hi : i < elf.ePhnum.toNat) :
      (elf.phdrOff i).toNat + 56 ≤ elf.size.toNat := by
    have hend := t.headers_le hok (by omega)
    rw [phdrOff_toNat (by omega)]
    omega
  constructor
  · intro i hi s h
    apply confined_note h
    show _ + _ ≤ _
    have := hoff i hi
    omega
  · intro i hi k len hk s h
    exact confined_note h (inside_field (hoff i hi) k len hk)
  · intro i hi p hp s h
    obtain ⟨hr, hf⟩ := t.segments i hi.index hi.reached hi.load hi.accepted
    exact confined_loadPage hr hi.accepted hp hf cr3 elf h

end Headers

/-! ## An address space without holes -/

/-- Every user page is mapped, by tables at `0x1000` to `0x4000`, to the frame `0x5000`. -/
structure AllMapped (vm : Vm) : Prop where
  pmm : vm.pmm = emptyVm.pmm
  pml4 : ∀ i, vm.mem 0x1000 i = if i.val < 256 then 0x2007 else 0
  pdpt : ∀ i, vm.mem 0x2000 i = 0x3007
  pd : ∀ i, vm.mem 0x3000 i = 0x4007
  pt : ∀ i, present (vm.mem 0x4000 i) = true ∧ leafAddr (vm.mem 0x4000 i) = 0x5000

def fullVm : Vm where
  pmm := emptyVm.pmm
  mem := fun x i =>
    if x = 0x1000 then if i.val < 256 then 0x2007 else 0
    else if x = 0x2000 then 0x3007
    else if x = 0x3000 then 0x4007
    else if x = 0x4000 then 0x5007
    else 0

theorem allMapped_fullVm : AllMapped fullVm := by
  constructor
  · rfl
  · intro i
    rfl
  · intro i
    rfl
  · intro i
    rfl
  · intro i
    show present 0x5007 = true ∧ leafAddr 0x5007 = 0x5000
    decide

theorem tableIndex_lt {virt : Addr} (h : virt < userAddrMax) : (tableIndex virt 39).val < 256 := by
  rw [lt_def, userAddrMax_toNat] at h
  show (virt >>> 39 &&& 0x1FF).toNat % 512 < 256
  have hindex : (virt >>> 39 &&& 0x1FF).toNat = virt.toNat / 2 ^ 39 % 512 := by
    rw [toNat_and, toNat_ushiftRight, shiftRight_eq_div_pow]
    exact and_two_pow_sub_one_eq_mod _ 9
  rw [hindex]
  omega

namespace AllMapped

variable {vm : Vm} {virt : Addr} (h : AllMapped vm)

include h

theorem findPt (hv : virt < userAddrMax) : findPt vm 0x1000 virt = some 0x4000 := by
  have htop : tableUnder vm 0x1000 (tableIndex virt 39) = some 0x2000 := by
    rw [tableUnder, h.pml4, if_pos (tableIndex_lt hv)]
    rfl
  have hmid (i : Fin 512) : tableUnder vm 0x2000 i = some 0x3000 := by
    rw [tableUnder, h.pdpt]
    rfl
  have hlow (i : Fin 512) : tableUnder vm 0x3000 i = some 0x4000 := by
    rw [tableUnder, h.pd]
    rfl
  rw [Mm.findPt, htop, bind_eq_bind, bind_some, hmid, bind_some,
    hlow]

theorem getPhys (hv : virt < userAddrMax) : vmmGetPhys vm 0x1000 virt = 0x5000 := by
  obtain ⟨hpresent, hleaf⟩ := h.pt (tableIndex virt 12)
  simp only [vmmGetPhys, h.findPt hv, hpresent, if_true, hleaf]

theorem getPhys_above : vmmGetPhys vm 0x1000 userAddrMax = 0 := by
  have htop : tableUnder vm 0x1000 (tableIndex userAddrMax 39) = none := by
    rw [tableUnder, h.pml4, if_neg (by decide)]
  simp only [vmmGetPhys, Mm.findPt, htop, bind_eq_bind, bind_none]

theorem pageTable (hv : virt < userAddrMax) : pageTable 0x1000 vm virt = 0x4000 := by
  rw [Elf.pageTable, h.pml4, if_pos (tableIndex_lt hv)]
  show tableAddr (vm.mem (tableAddr (vm.mem 0x2000 _)) _) = _
  rw [h.pdpt]
  show tableAddr (vm.mem 0x3000 _) = _
  rw [h.pd]
  rfl

theorem setPage (page : Page) : AllMapped (vm.setPage 0x5000 page) := by
  have hmem {x : Addr} (hx : x ≠ 0x5000) : (vm.setPage 0x5000 page).mem x = vm.mem x :=
    setPage_mem_of_ne _ hx _
  constructor
  · exact h.pmm
  · rw [hmem (by decide)]
    exact h.pml4
  · rw [hmem (by decide)]
    exact h.pdpt
  · rw [hmem (by decide)]
    exact h.pd
  · rw [hmem (by decide)]
    exact h.pt

theorem write {w : Word} (i : Fin 512) (hw : present w = true ∧ leafAddr w = 0x5000) :
    AllMapped (vm.write 0x4000 i w) := by
  have hmem {x : Addr} (hx : x ≠ 0x4000) : (vm.write 0x4000 i w).mem x = vm.mem x :=
    write_mem_of_ne _ hx _ _
  constructor
  · exact h.pmm
  · rw [hmem (by decide)]
    exact h.pml4
  · rw [hmem (by decide)]
    exact h.pdpt
  · rw [hmem (by decide)]
    exact h.pd
  · intro j
    rw [write_mem_self, update_apply]
    split
    · exact hw
    · exact h.pt j

end AllMapped

theorem present_or_writable (e : Word) : present (e ||| pageWritable) = present e := by
  rw [present_eq, present_eq, getLsbD_or, getLsbD_pageWritable]
  simp

theorem leafAddr_or_writable (e : Word) : leafAddr (e ||| pageWritable) = leafAddr e := by
  refine eq_of_getLsbD_eq fun i hi => ?_
  rw [getLsbD_leafAddr _ hi, getLsbD_leafAddr _ hi, getLsbD_or, getLsbD_pageWritable]
  grind

section Full

variable {elf : Buffer} {seg : Phdr} {p : Nat} {s : Loader}

/-- A user page is loaded into the frame that is there. -/
theorem loadPage_full (elf : Buffer) (h : AllMapped s.vm) (hv : seg.page p < userAddrMax) :
    ∃ s', loadPage 0x1000 elf seg p s = (true, s') ∧ AllMapped s'.vm ∧
      (copyFile elf seg (seg.page p) 0x5000 s).log <:+ s'.log := by
  have hphys := h.getPhys hv
  obtain ⟨page, hcopy⟩ := copyFile_vm elf seg (seg.page p) 0x5000 s
  have hfull : AllMapped (copyFile elf seg (seg.page p) 0x5000 s).vm := by
    rw [hcopy]
    exact h.setPage page
  simp only [loadPage, hphys]
  rw [if_pos (by decide)]
  refine ⟨_, rfl, ?_⟩
  cases seg.writes with
  | false => exact ⟨hfull, suffix_refl _⟩
  | true =>
    obtain ⟨hpresent, hleaf⟩ := hfull.pt (tableIndex (seg.page p) 12)
    refine ⟨?_, suffix_cons _ _⟩
    simp only [if_true, allowWrite, hfull.pageTable hv]
    apply hfull.write
    rw [present_or_writable, leafAddr_or_writable]
    exact ⟨hpresent, hleaf⟩

theorem loadPages_full (elf : Buffer) (n : Nat) (h : AllMapped s.vm)
    (hv : ∀ q < p + n, seg.page q < userAddrMax) :
    ∃ s', loadPages 0x1000 elf seg n p s = (true, s') ∧ AllMapped s'.vm := by
  induction n generalizing p s with
  | zero => exact ⟨s, rfl, h⟩
  | succ n ih =>
    obtain ⟨s1, hrun, hfull, -⟩ := loadPage_full elf h (hv p (by omega))
    obtain ⟨s', hrest, hfull'⟩ := ih hfull (p := p + 1) fun q hq => hv q (by omega)
    refine ⟨s', ?_, hfull'⟩
    rw [loadPages, hrun]
    exact hrest

theorem loadPages_add (cr3 : Addr) (elf : Buffer) (seg : Phdr) (m n p : Nat) (s : Loader) :
    loadPages cr3 elf seg (m + n) p s =
      match loadPages cr3 elf seg m p s with
      | (false, s) => (false, s)
      | (true, s) => loadPages cr3 elf seg n (p + m) s := by
  induction m generalizing p s with
  | zero => rw [zero_add]; rfl
  | succ m ih =>
    rw [succ_add, loadPages, loadPages]
    rcases loadPage cr3 elf seg p s with ⟨ok, s'⟩
    cases ok with
    | false => rfl
    | true =>
      show loadPages cr3 elf seg (m + n) (p + 1) s' = _
      rw [ih, add_assoc, add_comm 1 m]

/-- Page `q` is loaded when all the pages before it are user pages. -/
theorem suffix_full {q : Nat} (hi : elf.Loads i) (h : AllMapped s.vm)
    (hq : q < (elf.phdr i).pageCount) (hv : ∀ r < q, (elf.phdr i).page r < userAddrMax) :
    ∃ s', AllMapped s'.vm ∧ (loadPage 0x1000 elf (elf.phdr i) q s').2.log <:+
      (loadPages 0x1000 elf (elf.phdr i) (elf.phdr i).pageCount 0 s).2.log := by
  obtain ⟨s', hrun, hfull⟩ := loadPages_full elf q h (p := 0) fun r hr => hv r (by omega)
  refine ⟨s', hfull, ?_⟩
  obtain ⟨n, hn⟩ : ∃ n, (elf.phdr i).pageCount = q + (n + 1) :=
    ⟨(elf.phdr i).pageCount - q - 1, by omega⟩
  rw [hn, loadPages_add, hrun, Nat.zero_add]
  show _ <:+ (loadPages 0x1000 elf (elf.phdr i) (n + 1) q s').2.log
  rcases hpage : loadPage 0x1000 elf (elf.phdr i) q s' with ⟨ok, s1⟩
  rw [loadPages, hpage]
  cases ok with
  | false => exact suffix_refl _
  | true => exact (invariant_suffix 0x1000 elf s1.log).loadPages hi n (q + 1) (by omega) (suffix_refl _)

/-- The page above the user half is mapped to a new frame. -/
theorem page_mem_above (h : AllMapped s.vm) (hp : seg.page p = userAddrMax) :
    .page userAddrMax ∈ (loadPage 0x1000 elf seg p s).2.log := by
  have halloc : (pmmAllocPage emptyVm.pmm).1 ≠ 0 := by decide
  simp only [loadPage, hp, h.getPhys_above]
  rw [if_neg (by decide)]
  simp only [allocPage, h.pmm]
  rw [if_neg halloc, log_mapNew]
  exact mem_cons_self

/-- In this address space a segment that stays inside meets the condition. -/
theorem segment_inside (hi : elf.Loads i) (h : AllMapped s.vm)
    (hc : Confined elf.size (loadPages 0x1000 elf (elf.phdr i) (elf.phdr i).pageCount 0 s).2.log) :
    (elf.phdr i).InUserRange ∧ (elf.phdr i).InFile elf.size := by
  have ha := hi.accepted
  have hload {q : Nat} := suffix_full (q := q) hi h
  generalize elf.phdr i = seg at *
  have hr : seg.InUserRange := by
    by_contra hr
    obtain ⟨q, hq, hmax⟩ := exists_page_above hr ha
    have htop : seg.page q = userAddrMax := by
      apply BitVec.eq_of_toNat_eq
      rw [page_toNat (by omega), hmax]
      decide
    obtain ⟨s', hfull, hlog⟩ := hload hq fun r hr' =>
      page_lt (show seg.firstPage.toNat + r * 4096 < 2 ^ 47 by omega)
    have hinside := hc _ (hlog.subset (page_mem_above hfull htop))
    exact absurd hinside (BitVec.lt_irrefl _)
  refine ⟨hr, fun hfile hcount => ?_⟩
  have hread (p : Nat) (hp : p < seg.pageCount) (hmore : seg.fileStart p < seg.pFilesz.toNat) :
      (seg.fileRead p).Inside elf.size := by
    have hbelow := hr.below ha hp
    obtain ⟨s', hfull, hlog⟩ := hload hp fun r hrp =>
      page_lt (hr.below ha (hrp.trans hp))
    obtain ⟨s1, hrun, -, hcopy⟩ := loadPage_full elf hfull (page_lt hbelow)
    rw [hrun] at hlog
    apply hc _ ((hcopy.trans hlog).subset _)
    rw [copyFile_log (hbelow.trans (by decide)), if_pos hmore]
    exact mem_cons_of_mem _ mem_cons_self
  have hend (p : Nat) (hp : p < seg.pageCount) :
      seg.pOffset.toNat + min seg.pFilesz.toNat (seg.fileStart (p + 1)) ≤ elf.size.toNat := by
    -- each page begins where the one before it has ended
    induction p with
    | zero =>
      have hzero : seg.fileStart 0 = 0 := by simp [fileStart]
      have hfirst := hread 0 hp (by omega)
      rw [fileRead, hzero, BitVec.add_zero, Nat.sub_zero] at hfirst
      exact hfirst
    | succ p ih =>
      by_cases hmore : seg.fileStart (p + 1) < seg.pFilesz.toNat
      · have hnext : _ + _ ≤ _ := hread (p + 1) hp hmore
        have := elf.size.isLt
        rw [BitVec.toNat_add, BitVec.toNat_ofNat,
          Nat.mod_eq_of_lt (by omega : seg.fileStart (p + 1) < 2 ^ 64),
          Nat.mod_eq_of_lt (by omega)] at hnext
        omega
      · omega
  have hlast := hend (seg.pageCount - 1) (by omega)
  rwa [Nat.sub_add_cancel (by omega)] at hlast

/-- An accepted segment goes on to its pages. -/
theorem loadSegment_full (elf : Buffer) (off : Addr) (h : AllMapped s.vm) (ha : seg.Accepted) :
    ∃ s', AllMapped s'.vm ∧
      loadSegment 0x1000 elf off seg s = loadPages 0x1000 elf seg seg.pageCount 0 s' := by
  refine ⟨((((s.note (.read (off + 16) 8)).note (.read (off + 40) 8)).note
    (.read (off + 32) 8)).note (.read (off + 8) 8)).note (.read (off + 4) 4), h, ?_⟩
  rw [loadSegment, if_neg (BitVec.not_le.mpr ha.1), if_neg (BitVec.not_lt.mpr ha.2)]

theorem segments_inside (n i : Nat) (hn : i + n = elf.ePhnum.toNat) (h : AllMapped s.vm)
    (hc : Confined elf.size (loadSegments 0x1000 elf n i s).2.log) {k : Nat} (hik : i ≤ k)
    (hk : elf.Loads k) : (elf.phdr k).InUserRange ∧ (elf.phdr k).InFile elf.size := by
  induction n generalizing i s with
  | zero =>
    have hlt := hk.index
    omega
  | succ n ih =>
    rw [loadSegments] at hc
    have h0 : AllMapped (s.note (.read (elf.phdrOff i) 4)).vm := h
    generalize s.note (.read (elf.phdrOff i) 4) = s0 at hc h0
    split_ifs at hc with hload
    · have hi : elf.Loads i := by
        rcases hik.eq_or_lt with rfl | hlt
        · exact hk
        · exact ⟨by omega, fun j hj => hk.reached j (by omega), hload, hk.reached i hlt hload⟩
      obtain ⟨s1, hfull, hpages⟩ := loadSegment_full elf (elf.phdrOff i) h0 hi.accepted
      rw [hpages] at hc
      have hseg : Confined elf.size
          (loadPages 0x1000 elf (elf.phdr i) (elf.phdr i).pageCount 0 s1).2.log := by
        rcases hrun : loadPages 0x1000 elf (elf.phdr i) (elf.phdr i).pageCount 0 s1 with ⟨ok, s'⟩
        rw [hrun] at hc
        cases ok with
        | false => exact hc
        | true =>
          exact hc.of_suffix ((invariant_suffix 0x1000 elf s'.log).loadSegments n (i + 1) (by omega)
            (hi.reached.succ fun _ => hi.accepted) (suffix_refl _))
      have hinside := segment_inside hi hfull hseg
      rcases hik.eq_or_lt with rfl | hlt
      · exact hinside
      · obtain ⟨s', hrun, hfull'⟩ := loadPages_full elf (elf.phdr i).pageCount (p := 0) hfull
          fun q hq => page_lt (hinside.1.below hi.accepted (by omega))
        rw [hrun] at hc
        exact ih (i + 1) (by omega) hfull' hc hlt
    · rcases hik.eq_or_lt with rfl | hlt
      · exact absurd hk.load hload
      · exact ih (i + 1) (by omega) h0 hc hlt

end Full

/-! ## Whole runs -/

section Whole

variable {elf : Buffer}

/-- A file with a good header goes on to its segments. -/
theorem elfLoadToTask_headerOk (cr3 : Addr) (vm : Vm) (hok : elf.HeaderOk) :
    ∃ s, s.vm = vm ∧ Confined elf.size s.log ∧
      (elfLoadToTask cr3 (some elf) vm).2.log =
        let r := loadSegments cr3 elf elf.ePhnum.toNat 0 s
        if r.1 then .read 24 8 :: r.2.log else r.2.log := by
  obtain ⟨hsize, hmagic, hmachine, hend⟩ := hok
  have hbig : 64 ≤ elf.size.toNat := hsize
  refine ⟨⟨vm, [.read 56 2, .read 32 8, .read 18 2, .read 0 4]⟩, rfl, ?_, ?_⟩
  · intro a ha
    simp only [mem_cons, not_mem_nil, or_false] at ha
    rcases ha with rfl | rfl | rfl | rfl
    all_goals
      refine le_trans ?_ hbig
      decide
  · simp only [elfLoadToTask, hmagic, hmachine, Loader.note]
    rw [if_neg (BitVec.not_lt.mpr hsize), if_neg (by decide), if_neg (by decide),
      if_neg (BitVec.not_lt.mpr hend)]
    rcases loadSegments cr3 elf elf.ePhnum.toNat 0 _ with ⟨ok, s'⟩
    cases ok <;> rfl

theorem confined_of_not_headerOk (cr3 : Addr) (vm : Vm) (hok : ¬ elf.HeaderOk) :
    Confined elf.size (elfLoadToTask cr3 (some elf) vm).2.log := by
  rw [elfLoadToTask]
  by_cases hsize : elf.size < 64
  · rw [if_pos hsize]
    intro a ha
    cases ha
  · have hbig : 64 ≤ elf.size.toNat := BitVec.not_lt.mp hsize
    have hinside (off : Addr) (len : Nat) (h : off.toNat + len ≤ 64) :
        (Access.read off len).Inside elf.size := le_trans h hbig
    have h0 : Confined elf.size (Loader.mk vm []).log := fun a ha => by cases ha
    have h1 := confined_note h0 (hinside 0 4 (by decide))
    have h2 := confined_note h1 (hinside 18 2 (by decide))
    have h3 := confined_note (confined_note h2 (hinside 32 8 (by decide)))
      (hinside 56 2 (by decide))
    rw [if_neg hsize]
    by_cases hmagic : elf.hasMagic = false
    · rw [if_pos hmagic]
      exact h1
    · rw [if_neg hmagic]
      by_cases hmachine : elf.eMachine = 0x3E
      · rw [if_neg (not_not_intro hmachine)]
        have hend : elf.size < elf.ePhoff + elf.ePhnum.setWidth 64 * 56 := by
          by_contra hend
          exact hok ⟨BitVec.not_lt.mp hsize, Bool.eq_true_of_not_eq_false hmagic, hmachine,
            BitVec.not_lt.mp hend⟩
        rw [if_pos hend]
        exact h3
      · rw [if_pos hmachine]
        exact h2

theorem trusted_of_confined (hok : elf.HeaderOk)
    (hc : Confined elf.size (elfLoadToTask 0x1000 (some elf) fullVm).2.log) : elf.Trusted := by
  obtain ⟨s, hvm, -, hlog⟩ := elfLoadToTask_headerOk 0x1000 fullVm hok
  have hseg : Confined elf.size (loadSegments 0x1000 elf elf.ePhnum.toNat 0 s).2.log := by
    apply hc.of_suffix
    rw [hlog]
    dsimp only
    split
    · exact suffix_cons _ _
    · exact suffix_refl _
  have hfull : AllMapped s.vm := by
    rw [hvm]
    exact allMapped_fullVm
  constructor
  · intro hnum
    have hfirst : (Access.read elf.ePhoff 4).Inside elf.size := by
      apply hseg
      obtain ⟨n, hn⟩ : ∃ n, elf.ePhnum.toNat = n + 1 := ⟨elf.ePhnum.toNat - 1, by omega⟩
      have hzero : elf.phdrOff 0 = elf.ePhoff := BitVec.add_zero _
      rw [hn]
      have hinv := invariant_suffix 0x1000 elf (s.note (.read (elf.phdrOff 0) 4)).log
      have hlog := hinv.loadSegments_succ (by omega) (fun j hj => absurd hj (not_lt_zero j))
        (fun hreach s hs => hinv.loadSegments n 1 (by omega) hreach hs) (suffix_refl _)
      apply hlog.subset
      rw [hzero]
      exact mem_cons_self
    have hsmall : elf.ePhoff.toNat + 4 ≤ elf.size.toNat := hfirst
    have hobject := elf.object
    omega
  · intro i hi hreach hload ha
    exact segments_inside _ 0 (zero_add _) hfull hseg (Nat.zero_le i) ⟨hi, hreach, hload, ha⟩

end Whole

/-- Every access of the loader, in every address space, is inside of the buffer and of the
user half if and only if the header is refused or the file can be trusted. -/
theorem elf_load_confined (elf : Buffer) :
    (∀ cr3 vm, Confined elf.size (elfLoadToTask cr3 (some elf) vm).2.log) ↔
      (elf.HeaderOk → elf.Trusted) := by
  constructor
  · intro hc hok
    exact trusted_of_confined hok (hc 0x1000 fullVm)
  · intro htrust cr3 vm
    by_cases hok : elf.HeaderOk
    · obtain ⟨s, -, hs, hlog⟩ := elfLoadToTask_headerOk cr3 vm hok
      have hseg := ((htrust hok).confined hok cr3).loadSegments elf.ePhnum.toNat 0 (by omega)
        (fun j hj => absurd hj (not_lt_zero j)) hs
      rw [hlog]
      dsimp only
      split
      · have hbig : 64 ≤ elf.size.toNat := hok.1
        exact confined_note hseg (le_trans (by decide) hbig)
      · exact hseg
    · exact confined_of_not_headerOk cr3 vm hok

/-! ## Files that escape -/

/-- `n` bytes, the lowest first. -/
def leBytes : (n x : Nat) → List Byte
  | 0, _ => []
  | n + 1, x => BitVec.ofNat 8 x :: leBytes n (x / 256)

/-- A file of 120 bytes: the header, and one `PT_LOAD` header after it. -/
def smallFile (phoff offset vaddr filesz memsz : Nat) : Buffer where
  byte := fun off => (
    [0x7f, 0x45, 0x4c, 0x46] ++ leBytes 14 2 ++ leBytes 2 0x3E ++ leBytes 4 1 ++
      leBytes 8 0x400000 ++ leBytes 8 phoff ++ leBytes 16 0 ++ leBytes 2 1 ++ leBytes 6 0 ++
      (leBytes 4 1 ++ leBytes 4 6 ++ leBytes 8 offset ++ leBytes 8 vaddr ++ leBytes 8 0 ++
        leBytes 8 filesz ++ leBytes 8 memsz ++ leBytes 8 0)).getD off.toNat 0
  size := 120
  object := by decide

/-- `e_phoff + e_phnum * 56` is `0`. -/
def wrapHeaders : Buffer := smallFile (2 ^ 64 - 56) 0 0 0 0

/-- The segment has more bytes than the file. -/
def longSegment : Buffer := smallFile 64 0 0x400000 0x1000 0x1000

/-- `p_vaddr + p_memsz` is `0`. -/
def wrapSegment : Buffer := smallFile 64 0 0x7FFFFFFFF000 0 (2 ^ 64 - 0x7FFFFFFFF000)

theorem elf_load_escapes :
    ¬ Confined 120 (elfLoadToTask 0x1000 (some wrapHeaders) fullVm).2.log ∧
      ¬ Confined 120 (elfLoadToTask 0x1000 (some longSegment) fullVm).2.log ∧
      ¬ Confined 120 (elfLoadToTask 0x1000 (some wrapSegment) fullVm).2.log := by
  refine ⟨fun h => ?_, fun h => ?_, fun h => ?_⟩
  · have hok : wrapHeaders.HeaderOk := by
      unfold Buffer.HeaderOk
      decide
    have hend := (trusted_of_confined hok h).headers (by decide)
    exact absurd hend (by decide)
  · have hok : longSegment.HeaderOk := by
      unfold Buffer.HeaderOk
      decide
    have hfile := ((trusted_of_confined hok h).segments 0 (by decide)
      (fun j hj => absurd hj (not_lt_zero j)) (by decide) ⟨by decide, by decide⟩).2
    exact absurd (hfile (by decide) (by decide)) (by decide)
  · have hok : wrapSegment.HeaderOk := by
      unfold Buffer.HeaderOk
      decide
    have hrange := ((trusted_of_confined hok h).segments 0 (by decide)
      (fun j hj => absurd hj (not_lt_zero j)) (by decide) ⟨by decide, by decide⟩).1
    unfold Phdr.InUserRange at hrange
    exact absurd hrange (by decide)

end Crius.Elf
