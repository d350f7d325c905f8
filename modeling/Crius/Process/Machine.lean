import Crius.Process.ElfBuild
import Crius.Process.Exec

/-!
# The process code over page tables

The services of the process code with physical memory, the page allocator, the page tables
and the loader as they are. The heap and the file layer stay a parameter: all that the
process code relies on is that they take their pages from the page allocator and write to no
others.
-/
namespace Crius.Process

open Fs Mm List
open Elf (Byte)

variable {η : Type}

/-- The heap and the file layer, with a state of their own beside physical memory. -/
structure Outside (η : Type) where
  kmalloc : Nat → Vm × η → Nat × (Vm × η)
  kfree : Nat → Vm × η → Vm × η
  fileGet : FileId → η → η
  filePut : FileId → Vm × η → Vm × η
  vfsStat : List UInt8 → Vm × η → Option Nat × (Vm × η)
  vfsRead : List UInt8 → Nat → Vm × η → Option (List UInt8) × (Vm × η)
  /-- the memory around a kernel buffer -/
  around : Vm × η → Addr → Elf.Byte
  /-- the frames of the page runs of the heap -/
  heap : η → Addr → Prop
  fileRefs : η → FileId → Nat
  /-- the contents of the file that a path names -/
  contents : η → List UInt8 → Option (List UInt8)

/-- The heap has moved pages; no file has been opened, closed or written. -/
structure Outside.Moves (O : Outside η) (e e' : Vm × η) : Prop where
  heap : HeapMoves e.1 (O.heap e.2) e'.1 (O.heap e'.2)
  files : O.fileRefs e'.2 = O.fileRefs e.2
  contents : O.contents e'.2 = O.contents e.2

/-- The frames of the heap are in use, and nothing else owns one of them. -/
def Outside.Owned (O : Outside η) (e : Vm × η) : Prop :=
  ∃ (roots loose : Multiset Addr) (lost : Addr → ℕ) (reserved : Addr → Prop),
    Forest e.1 roots loose lost (fun x => O.heap e.2 x ∨ reserved x) ∧
      ∀ x, O.heap e.2 x → ¬reserved x

/-- In states whose memory is accounted for, the heap takes and gives back its own frames only. The
last `file_put` of a directory frees its handle. -/
structure Outside.Ok (O : Outside η) : Prop where
  kmalloc : ∀ size e, O.Owned e → O.Moves e (O.kmalloc size e).2
  kfree : ∀ ptr e, O.Owned e → O.Moves e (O.kfree ptr e)
  vfsStat : ∀ path e, O.Owned e → O.Moves e (O.vfsStat path e).2
  vfsRead : ∀ path size e, O.Owned e → O.Moves e (O.vfsRead path size e).2
  read : ∀ path size e data, (O.vfsRead path size e).1 = some data → data.length = size →
    O.contents e.2 path = some data
  fileGet : ∀ f s, O.heap (O.fileGet f s) = O.heap s
  filePut : ∀ f e, O.Owned e →
    HeapMoves e.1 (O.heap e.2) (O.filePut f e).1 (O.heap (O.filePut f e).2)

/-! ## The argument page -/

/-- A store of one byte through the direct map. -/
def storeByte (vm : Vm) (addr : Addr) (b : Elf.Byte) : Vm :=
  vm.setPage (tableAddr addr)
    (Elf.copyIn (vm.mem (tableAddr addr)) (addr &&& 0xFFF).toNat 1 fun _ => b)

/-- The inner loop of `do_exec`, which stops one byte before the end of the page. The first
component is `str_off`. -/
def copyArg (argPhys : Addr) : List UInt8 → Nat → Vm → Nat × Vm
  | [], strOff, vm => (strOff, vm)
  | c :: cs, strOff, vm =>
    if strOff < 0x1000 - 1 then
      copyArg argPhys cs (strOff + 1) (storeByte vm (argPhys + BitVec.ofNat 64 strOff) c.toBitVec)
    else (strOff, vm)

/-- One round of the outer loop: the pointer, the characters and the final zero. -/
def addArg (argPhys : Addr) (s : Nat × Nat × Vm) (arg : List UInt8) : Nat × Nat × Vm :=
  match s with
  | (i, strOff, vm) =>
    let vm := vm.write argPhys (Fin.ofNat 512 (4 + i)) (BitVec.ofNat 64 (argPageBase + strOff))
    match copyArg argPhys arg strOff vm with
    | (strOff, vm) => (i + 1, strOff + 1, storeByte vm (argPhys + BitVec.ofNat 64 strOff) 0)

/-- The zeroed page with `argc`, `argv`, the pointers and the strings. -/
def fillArgs (argPhys : Addr) (argv : List (List UInt8)) (vm : Vm) : Vm :=
  let vm := vm.setPage argPhys fun _ => 0
  let vm := vm.write argPhys 0 (BitVec.ofNat 64 argv.length)
  let vm := vm.write argPhys 1 (BitVec.ofNat 64 (argPageBase + 32))
  (argv.foldl (addArg argPhys) (0, 256, vm)).2.2

/-- What `syscall_handler` checks of the arguments of an exec: each string ends within
`MAX_ARG_LEN` bytes. -/
def ArgsOk (argv : List (List UInt8)) : Prop := ∀ arg ∈ argv, arg.length < Abi.MAX_ARG_LEN

instance (argv : List (List UInt8)) : Decidable (ArgsOk argv) :=
  inferInstanceAs (Decidable (∀ arg ∈ argv, _))

/-- The file that `do_exec` has read, in the buffer that it was read to. -/
def imageOf (data : List UInt8) (around : Addr → Elf.Byte) : Option Elf.Buffer :=
  if h : data.length < 2 ^ 63 then
    some
      { byte := fun off => (data[off.toNat]?.map UInt8.toBitVec).getD (around off)
        size := BitVec.ofNat 64 data.length
        object := by
          rw [BitVec.toNat_ofNat]
          omega }
  else none

def vmServices (O : Outside η) : Services (Vm × η) where
  kmalloc := O.kmalloc
  kfree := O.kfree
  pmmAllocPage e := (e.1.allocPage.1, (e.1.allocPage.2, e.2))
  pmmFreePage phys e := (e.1.freePage phys, e.2)
  vmmCreatePml4 e := ((vmmCreatePml4 e.1).1, ((vmmCreatePml4 e.1).2, e.2))
  vmmMapKernel active pml4 e := (vmmMapKernel active pml4 e.1, e.2)
  vmmMapPage pml4 virt phys flags e :=
    ((vmmMapPage pml4 virt phys flags e.1).1, ((vmmMapPage pml4 virt phys flags e.1).2, e.2))
  vmmCopyUserspace dst src e :=
    ((vmmCopyUserspace dst src e.1).1, ((vmmCopyUserspace dst src e.1).2, e.2))
  vmmFreeUserPages pml4 e := (vmmFreeUserPages pml4 e.1, e.2)
  fileGet f e := (e.1, O.fileGet f e.2)
  filePut := O.filePut
  vfsStat := O.vfsStat
  vfsRead := O.vfsRead
  elfLoadToTask cr3 data e :=
    ((Elf.elfLoadToTask cr3 (imageOf data (O.around e)) e.1).1.toNat,
      ((Elf.elfLoadToTask cr3 (imageOf data (O.around e)) e.1).2.vm, e.2))
  fillArgPage phys argv e := (fillArgs phys argv e.1, e.2)

/-! ## The stores into the argument page -/

/-- The user address of an offset in the page. -/
def argAddr (off : ℕ) : Word := BitVec.ofNat 64 (argPageBase + off)

/-- One store of `do_exec` into the argument page. -/
inductive Store where
  | word (off : ℕ) (w : Word)
  | byte (off : ℕ) (b : Byte)

namespace Store

def run (argPhys : Addr) (vm : Vm) : Store → Vm
  | word off w => vm.write argPhys (Fin.ofNat 512 (off / 8)) w
  | byte off b => storeByte vm (argPhys + BitVec.ofNat 64 off) b

/-- The store stays in the header and its pointer array, or in the strings. -/
def Inside : Store → Prop
  | word off _ => off + 8 ≤ 256
  | byte off _ => 256 ≤ off ∧ off < 0x1000

end Store

/-- The stores of `copyArg`, with `str_off` after them. -/
def copyStores : List UInt8 → ℕ → ℕ × List Store
  | [], strOff => (strOff, [])
  | c :: cs, strOff =>
    if strOff < 0x1000 - 1 then
      ((copyStores cs (strOff + 1)).1, .byte strOff c.toBitVec :: (copyStores cs (strOff + 1)).2)
    else (strOff, [])

/-- The stores of the loop over the arguments from `i` on. -/
def addStores : List (List UInt8) → (i strOff : ℕ) → List Store
  | [], _, _ => []
  | arg :: rest, i, strOff =>
    let copied := copyStores arg strOff
    .word (32 + 8 * i) (argAddr strOff) ::
      (copied.2 ++ .byte copied.1 0 :: addStores rest (i + 1) (copied.1 + 1))

/-- The stores of `do_exec` after it has cleared the page. -/
def argStores (argv : List (List UInt8)) : List Store :=
  .word 0 (BitVec.ofNat 64 argv.length) :: .word 8 (argAddr 32) :: addStores argv 0 256

theorem copyArg_eq_stores (argPhys : Addr) (arg : List UInt8) (off : ℕ) (vm : Vm) :
    copyArg argPhys arg off vm =
      ((copyStores arg off).1, (copyStores arg off).2.foldl (Store.run argPhys) vm) := by
  induction arg generalizing off vm with
  | nil => rfl
  | cons c cs ih =>
    rw [copyArg, copyStores]
    split
    · rw [ih]
      rfl
    · rfl

theorem addArgs_eq_stores (argPhys : Addr) (args : List (List UInt8)) (i off : ℕ) (vm : Vm) :
    (args.foldl (addArg argPhys) (i, off, vm)).2.2 =
      (addStores args i off).foldl (Store.run argPhys) vm := by
  induction args generalizing i off vm with
  | nil => rfl
  | cons arg rest ih =>
    have hslot : (32 + 8 * i) / 8 = 4 + i := by omega
    have hround : addArg argPhys (i, off, vm) arg = (i + 1, (copyStores arg off).1 + 1,
        Store.run argPhys ((copyStores arg off).2.foldl (Store.run argPhys)
          (Store.run argPhys vm (.word (32 + 8 * i) (argAddr off))))
          (.byte (copyStores arg off).1 0)) := by
      rw [addArg, copyArg_eq_stores]
      simp only [Store.run, hslot]
      rfl
    rw [foldl_cons, hround, ih, addStores]
    simp only [foldl_cons, foldl_append]

/-- `do_exec` fills the page by these stores and no others. -/
theorem fillArgs_eq_stores (argPhys : Addr) (argv : List (List UInt8)) (vm : Vm) :
    fillArgs argPhys argv vm =
      (argStores argv).foldl (Store.run argPhys) (vm.setPage argPhys fun _ => 0) := by
  rw [fillArgs, argStores, foldl_cons, foldl_cons, addArgs_eq_stores]
  rfl

theorem copyStores_inside (arg : List UInt8) (off : ℕ) (hlow : 256 ≤ off) (hoff : off ≤ 0xFFF) :
    (copyStores arg off).1 = min (off + arg.length) 0xFFF ∧
      ∀ s ∈ (copyStores arg off).2, s.Inside := by
  induction arg generalizing off with
  | nil => exact ⟨(Nat.min_eq_left hoff).symm, fun _ h => absurd h not_mem_nil⟩
  | cons c cs ih =>
    rw [copyStores]
    by_cases hlt : off < 0x1000 - 1
    · obtain ⟨hend, hall⟩ := ih (off + 1) (by omega) (by omega)
      rw [if_pos hlt, length_cons]
      refine ⟨by omega, fun s hs => ?_⟩
      rcases mem_cons.mp hs with rfl | hs
      · exact ⟨hlow, by omega⟩
      · exact hall s hs
    · rw [if_neg hlt, length_cons]
      exact ⟨by omega, fun _ h => absurd h not_mem_nil⟩

theorem addStores_inside {n i off : ℕ} (args : List (List UInt8)) (hargs : ∀ arg ∈ args, arg.length < n)
    (hi : i + args.length ≤ 28) (hlow : 256 ≤ off) (hfit : off + (args.length - 1) * n ≤ 0xFFF) :
    ∀ s ∈ addStores args i off, s.Inside := by
  induction args generalizing i off with
  | nil => exact fun _ h => absurd h not_mem_nil
  | cons arg rest ih =>
    have harg := hargs arg mem_cons_self
    obtain ⟨hend, hall⟩ := copyStores_inside arg off hlow (by omega)
    rw [length_cons] at hi hfit
    intro s hs
    rw [addStores] at hs
    rcases mem_cons.mp hs with rfl | hs
    · show 32 + 8 * i + 8 ≤ 256
      omega
    rcases mem_append.mp hs with hs | hs
    · exact hall s hs
    rcases mem_cons.mp hs with rfl | hs
    · show 256 ≤ (copyStores arg off).1 ∧ (copyStores arg off).1 < 0x1000
      omega
    cases rest with
    | nil => exact absurd hs not_mem_nil
    | cons arg' rest =>
      rw [length_cons] at hfit
      rw [Nat.add_sub_cancel, Nat.succ_mul] at hfit
      refine ih (fun a ha => hargs a (mem_cons_of_mem arg ha)) (by omega) (by omega) ?_ s hs
      rw [length_cons, Nat.add_sub_cancel]
      omega

theorem argStores_inside {argv : List (List UInt8)} (hlen : argv.length ≤ Abi.MAX_ARGS)
    (hargs : ArgsOk argv) : ∀ s ∈ argStores argv, s.Inside := by
  have hmax : argv.length ≤ 16 := hlen
  intro s hs
  rcases mem_cons.mp hs with rfl | hs
  · exact Nat.le_of_ble_eq_true rfl
  rcases mem_cons.mp hs with rfl | hs
  · exact Nat.le_of_ble_eq_true rfl
  refine addStores_inside argv (n := Abi.MAX_ARG_LEN) hargs (by omega) (le_refl 256) ?_ s hs
  unfold Abi.MAX_ARG_LEN
  omega

/-! ## The arguments stay in their page -/

section Args

variable {vm vm' : Vm} {argPhys : Addr}

/-- Only the given page has changed. -/
def OnlyPage (phys : Addr) (vm vm' : Vm) : Prop := ∃ page, vm' = vm.setPage phys page

theorem OnlyPage.refl (phys : Addr) (vm : Vm) : OnlyPage phys vm vm :=
  ⟨vm.mem phys, by rw [Vm.setPage, Function.update_eq_self]⟩

theorem OnlyPage.setPage (h : OnlyPage argPhys vm vm') (page : Page) :
    OnlyPage argPhys vm (vm'.setPage argPhys page) := by
  obtain ⟨page', rfl⟩ := h
  exact ⟨page, by simp [Vm.setPage]⟩

variable (hframe : IsFrame argPhys)

include hframe

theorem tableAddr_add (off : Nat) (hoff : off < 4096) :
    tableAddr (argPhys + BitVec.ofNat 64 off) = argPhys := by
  have haligned := tableAddr_toNat argPhys
  rw [hframe.tableAddr] at haligned
  have hsum : (argPhys + BitVec.ofNat 64 off).toNat = argPhys.toNat + off := by
    rw [BitVec.toNat_add, BitVec.toNat_ofNat, Nat.mod_eq_of_lt (by omega : off < 2 ^ 64),
      Nat.mod_eq_of_lt (by omega)]
  apply BitVec.eq_of_toNat_eq
  rw [tableAddr_toNat, hsum]
  omega

theorem onlyPage_storeByte (h : OnlyPage argPhys vm vm') (off : Nat) (hoff : off < 4096)
    (b : Elf.Byte) : OnlyPage argPhys vm (storeByte vm' (argPhys + BitVec.ofNat 64 off) b) := by
  rw [storeByte, tableAddr_add hframe off hoff]
  exact h.setPage _

theorem onlyPage_run (h : OnlyPage argPhys vm vm') {s : Store} (hs : s.Inside) :
    OnlyPage argPhys vm (s.run argPhys vm') := by
  cases s with
  | word off w => exact h.setPage _
  | byte off b => exact onlyPage_storeByte hframe h off hs.2 b

/-- Sixteen checked arguments stay inside of the argument page. -/
theorem onlyPage_fillArgs {argv : List (List UInt8)} (hargs : ArgsOk argv) (vm : Vm) :
    OnlyPage argPhys vm (fillArgs argPhys (argv.take Abi.MAX_ARGS) vm) := by
  rw [fillArgs_eq_stores]
  have hinside := argStores_inside (length_take_le Abi.MAX_ARGS argv) fun arg harg =>
    hargs arg (mem_of_mem_take harg)
  exact foldlRecOn _ _ ((OnlyPage.refl argPhys vm).setPage _) fun vm' h s hs =>
    onlyPage_run hframe h (hinside s hs)

end Args

end Crius.Process
