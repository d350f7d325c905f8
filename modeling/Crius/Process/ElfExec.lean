import Crius.Mm.Vmm

/-!
# The ELF loader

`process/elf_exec.c`. The file is seen from `elf_data`: byte `off` of a buffer is the byte
at `elf_data + off` in 64-bit arithmetic, also when that lies outside of the buffer, since
nothing but the checks of the loader keeps it inside. A run keeps a log of what the loader
reads through `elf_data` and of the virtual pages that it maps, writes through or makes
writable, the latest first.
-/
namespace Crius.Elf

open Mm

abbrev Byte := BitVec 8

def userAddrMax : Addr := 0x0000800000000000

/-- A buffer of `size` bytes at `elf_data`, which is an object in one half of the address
space, and the memory around it. -/
structure Buffer where
  byte : Addr → Byte
  size : Addr
  object : size.toNat < 2 ^ 63

inductive Access where
  /-- `len` bytes from `elf_data + off` -/
  | read (off : Addr) (len : Nat)
  /-- a virtual page that is mapped, written or made writable -/
  | page (virt : Addr)
  deriving DecidableEq

/-- Physical memory and what the loader has done. -/
structure Loader where
  vm : Vm
  log : List Access

def Loader.note (s : Loader) (a : Access) : Loader := { s with log := a :: s.log }

/-- `elf64_phdr_t`, without the fields `p_paddr` and `p_align` that nothing reads. -/
structure Phdr where
  pType : BitVec 32
  pFlags : BitVec 32
  pOffset : Addr
  pVaddr : Addr
  pFilesz : Addr
  pMemsz : Addr

namespace Buffer

variable (elf : Buffer)

/-- The little-endian number in the `n` bytes from `off`. -/
def le (off : Addr) : Nat → Nat
  | 0 => 0
  | n + 1 => (elf.byte off).toNat + 256 * le (off + 1) n

def word (off : Addr) : Addr := BitVec.ofNat 64 (elf.le off 8)

def eMachine : BitVec 16 := BitVec.ofNat 16 (elf.le 18 2)
def eEntry : Addr := elf.word 24
def ePhoff : Addr := elf.word 32
def ePhnum : BitVec 16 := BitVec.ofNat 16 (elf.le 56 2)

/-- `&phdrs[i]` -/
def phdrOff (i : Nat) : Addr := elf.ePhoff + BitVec.ofNat 64 (56 * i)

def phdr (i : Nat) : Phdr where
  pType := BitVec.ofNat 32 (elf.le (elf.phdrOff i) 4)
  pFlags := BitVec.ofNat 32 (elf.le (elf.phdrOff i + 4) 4)
  pOffset := elf.word (elf.phdrOff i + 8)
  pVaddr := elf.word (elf.phdrOff i + 16)
  pFilesz := elf.word (elf.phdrOff i + 32)
  pMemsz := elf.word (elf.phdrOff i + 40)

def hasMagic : Bool :=
  elf.byte 0 == 0x7f && elf.byte 1 == 0x45 && elf.byte 2 == 0x4c && elf.byte 3 == 0x46

end Buffer

namespace Phdr

variable (seg : Phdr)

def isLoad : Bool := seg.pType == 1
def writes : Bool := seg.pFlags &&& 2 != 0
def runs : Bool := seg.pFlags &&& 1 != 0

def pageOff : Addr := seg.pVaddr &&& 0xFFF
def firstPage : Addr := seg.pVaddr &&& ~~~0xFFF
def totalBytes : Addr := seg.pMemsz + seg.pageOff
def pageCount : Nat := ((seg.totalBytes + 0xFFF) / 0x1000).toNat

/-- `first_page + p * 0x1000` -/
def page (p : Nat) : Addr := seg.firstPage + BitVec.ofNat 64 p * 0x1000

/-- `seg_flags` -/
def flags : Word :=
  pagePresent ||| pageUser ||| (if seg.writes then pageWritable else 0) |||
    (if seg.runs then 0 else pageNx)

end Phdr

/-- Byte `k` of a page. -/
def pageByte (page : Page) (k : Nat) : Byte :=
  (page (Fin.ofNat 512 (k / 8))).extractLsb' (8 * (k % 8)) 8

/-- The page with the given bytes. -/
def ofBytes (f : Nat → Byte) : Page := fun i =>
  f (8 * i + 7) ++ f (8 * i + 6) ++ f (8 * i + 5) ++ f (8 * i + 4) ++
    f (8 * i + 3) ++ f (8 * i + 2) ++ f (8 * i + 1) ++ f (8 * i)

/-- `memcpy` of `len` bytes to offset `start` of a page. -/
def copyIn (page : Page) (start len : Nat) (src : Nat → Byte) : Page :=
  ofBytes fun k => if start ≤ k ∧ k < start + len then src (k - start) else pageByte page k

section Load

variable (cr3 : Addr) (elf : Buffer)

/-- The `memcpy` of one page: `seg_page_off`, `file_off` and `bytes_in_page` are given. -/
def copyBytes (seg : Phdr) (virt phys : Addr) (segPageOff fileOff : Addr) (s : Loader) : Loader :=
  if fileOff < seg.pFilesz then
    let bytes := min (seg.pFilesz - fileOff).toNat (0x1000 - segPageOff).toNat
    { vm := s.vm.setPage phys (copyIn (s.vm.mem phys) segPageOff.toNat bytes fun k =>
        elf.byte (seg.pOffset + fileOff + BitVec.ofNat 64 k))
      log := .page virt :: .read (seg.pOffset + fileOff) bytes :: s.log }
  else s

/-- The file data of one page is copied to its frame. -/
def copyFile (seg : Phdr) (virt phys : Addr) (s : Loader) : Loader :=
  if 0 < seg.pFilesz then
    if seg.pVaddr ≤ virt then copyBytes elf seg virt phys 0 (virt - seg.pVaddr) s
    else copyBytes elf seg virt phys seg.pageOff 0 s
  else s

/-- A new page is mapped, or its frame is given back. -/
def mapNew (seg : Phdr) (virt phys : Addr) (s : Loader) : Bool × Loader :=
  match vmmMapPage cr3 virt phys seg.flags s.vm with
  | (true, vm) => (true, ⟨vm, .page virt :: s.log⟩)
  | (false, vm) => (false, ⟨vm.freePage phys, .page virt :: s.log⟩)

/-- The walk that makes a page writable does not look at the present bits. -/
def pageTable (vm : Vm) (virt : Addr) : Addr :=
  let pdpt := tableAddr (vm.mem cr3 (tableIndex virt 39))
  let pd := tableAddr (vm.mem pdpt (tableIndex virt 30))
  tableAddr (vm.mem pd (tableIndex virt 21))

def allowWrite (virt : Addr) (s : Loader) : Loader :=
  let pt := pageTable cr3 s.vm virt
  let i := tableIndex virt 12
  ⟨s.vm.write pt i (s.vm.mem pt i ||| pageWritable), .page virt :: s.log⟩

/-- One round of the loop over the pages of a segment; `false` when the loader gives up. -/
def loadPage (seg : Phdr) (p : Nat) (s : Loader) : Bool × Loader :=
  let virt := seg.page p
  let existing := vmmGetPhys s.vm cr3 virt
  if existing ≠ 0 then
    let s := copyFile elf seg virt existing s
    (true, if seg.writes then allowWrite cr3 virt s else s)
  else
    match s.vm.allocPage with
    | (phys, vm) =>
      if phys = 0 then (false, ⟨vm, s.log⟩)
      else
        mapNew cr3 seg virt phys
          (copyFile elf seg virt phys ⟨vm.setPage phys fun _ => 0, s.log⟩)

/-- `n` rounds from page `p`. -/
def loadPages (seg : Phdr) : (n p : Nat) → Loader → Bool × Loader
  | 0, _, s => (true, s)
  | n + 1, p, s =>
    match loadPage cr3 elf seg p s with
    | (false, s) => (false, s)
    | (true, s) => loadPages seg n (p + 1) s

/-- The body of the loop over the program headers, for a `PT_LOAD` header at `off`. -/
def loadSegment (off : Addr) (seg : Phdr) (s : Loader) : Bool × Loader :=
  let s := s.note (.read (off + 16) 8)
  if userAddrMax ≤ seg.pVaddr then (false, s)
  else
    let s := s.note (.read (off + 40) 8)
    if userAddrMax < seg.pVaddr + seg.pMemsz then (false, s)
    else
      let s := ((s.note (.read (off + 32) 8)).note (.read (off + 8) 8)).note (.read (off + 4) 4)
      loadPages cr3 elf seg seg.pageCount 0 s

/-- `n` rounds from header `i`. -/
def loadSegments : (n i : Nat) → Loader → Bool × Loader
  | 0, _, s => (true, s)
  | n + 1, i, s =>
    let s := s.note (.read (elf.phdrOff i) 4)
    if (elf.phdr i).isLoad then
      match loadSegment cr3 elf (elf.phdrOff i) (elf.phdr i) s with
      | (false, s) => (false, s)
      | (true, s) => loadSegments n (i + 1) s
    else loadSegments n (i + 1) s

/-- `elf_load_to_task`, with `none` for a null `elf_data`. The first component is the entry
point, `0` on failure. -/
def elfLoadToTask (elfData : Option Buffer) (vm : Vm) : Addr × Loader :=
  match elfData with
  | none => (0, ⟨vm, []⟩)
  | some elf =>
    let s : Loader := ⟨vm, []⟩
    if elf.size < 64 then (0, s)
    else
      let s := s.note (.read 0 4)
      if elf.hasMagic = false then (0, s)
      else
        let s := s.note (.read 18 2)
        if elf.eMachine ≠ 0x3E then (0, s)
        else
          let s := (s.note (.read 32 8)).note (.read 56 2)
          if elf.size < elf.ePhoff + elf.ePhnum.setWidth 64 * 56 then (0, s)
          else
            match loadSegments cr3 elf elf.ePhnum.toNat 0 s with
            | (false, s) => (0, s)
            | (true, s) => (elf.eEntry, s.note (.read 24 8))

end Load

end Crius.Elf
