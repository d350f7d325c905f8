import Crius.Mm.Pmm

/-!
# Page tables

`mm/vmm.c`. Physical memory is a map from page addresses to pages of 512 words; the code
reaches it through the higher-half direct map, whose offset plays no part here. The walks
look at the present bit only, as the source does.

`copy_pd`, `copy_pdpt` and `vmm_copy_userspace` are one loop at three levels, and so are
`free_user_pd` and `free_user_pdpt`.
-/
namespace Crius.Mm

open Function

abbrev Page := Fin 512 → Word

instance neZero_entries : NeZero 512 := ⟨by decide⟩

/-- The page allocator and physical memory. -/
@[ext] structure Vm where
  pmm : Pmm
  mem : Addr → Page

namespace Vm

def setPage (vm : Vm) (phys : Addr) (page : Page) : Vm :=
  { vm with mem := Function.update vm.mem phys page }

/-- `table[i] = w` -/
def write (vm : Vm) (table : Addr) (i : Fin 512) (w : Word) : Vm :=
  vm.setPage table (Function.update (vm.mem table) i w)

def allocPage (vm : Vm) : Addr × Vm :=
  ((pmmAllocPage vm.pmm).1, { vm with pmm := (pmmAllocPage vm.pmm).2 })

def freePage (vm : Vm) (phys : Addr) : Vm := { vm with pmm := pmmFreePage vm.pmm phys }

def incref (vm : Vm) (phys : Addr) : Vm := { vm with pmm := pmmIncref vm.pmm phys }

end Vm

/-- `alloc_page_table`, with `none` for `NULL` -/
def allocPageTable (vm : Vm) : Option Addr × Vm :=
  match vm.allocPage with
  | (phys, vm) => if phys = 0 then (none, vm) else (some phys, vm.setPage phys fun _ => 0)

def vmmCreatePml4 (vm : Vm) : Addr × Vm :=
  match allocPageTable vm with
  | (none, vm) => (0, vm)
  | (some pml4, vm) => (pml4, vm)

/-- `(virt >> shift) & 0x1FF` -/
def tableIndex (virt : Addr) (shift : Nat) : Fin 512 :=
  Fin.ofNat 512 (virt >>> shift &&& 0x1FF).toNat

/-- The table under an entry of `vmm_map_page`'s walk, which is made if there is none. -/
def nextTable (table : Addr) (i : Fin 512) (flags : Word) (vm : Vm) : Option Addr × Vm :=
  if present (vm.mem table i) then (some (tableAddr (vm.mem table i)), vm)
  else
    match allocPageTable vm with
    | (none, vm) => (none, vm)
    | (some next, vm) => (some next, vm.write table i (tableEntry next flags))

def vmmMapPage (pml4 virt phys : Addr) (flags : Word) (vm : Vm) : Bool × Vm :=
  match nextTable pml4 (tableIndex virt 39) flags vm with
  | (none, vm) => (false, vm)
  | (some pdpt, vm) =>
    match nextTable pdpt (tableIndex virt 30) flags vm with
    | (none, vm) => (false, vm)
    | (some pd, vm) =>
      match nextTable pd (tableIndex virt 21) flags vm with
      | (none, vm) => (false, vm)
      | (some pt, vm) =>
        if present (vm.mem pt (tableIndex virt 12)) then (false, vm)
        else (true, vm.write pt (tableIndex virt 12) (mapEntry phys flags))

/-- The table under a present entry. -/
def tableUnder (vm : Vm) (table : Addr) (i : Fin 512) : Option Addr :=
  if present (vm.mem table i) then some (tableAddr (vm.mem table i)) else none

/-- The walk of `vmm_get_phys` and `vmm_handle_cow_fault` down to the page table. -/
def findPt (vm : Vm) (pml4 virt : Addr) : Option Addr := do
  let pdpt ← tableUnder vm pml4 (tableIndex virt 39)
  let pd ← tableUnder vm pdpt (tableIndex virt 30)
  tableUnder vm pd (tableIndex virt 21)

def vmmGetPhys (vm : Vm) (pml4 virt : Addr) : Addr :=
  match findPt vm pml4 virt with
  | none => 0
  | some pt =>
    let e := vm.mem pt (tableIndex virt 12)
    if present e then leafAddr e else 0

/-- The entries 0 to 255 of a PML4. -/
def lowerHalf : List (Fin 512) := (List.finRange 512).filter (·.val < 256)

/-- The entries 256 to 511 of a PML4. -/
def upperHalf : List (Fin 512) := (List.finRange 512).filter (256 ≤ ·.val)

/-- `vmm_map_kernel`, with the active page table as its first argument. -/
def vmmMapKernel (active pml4 : Addr) (vm : Vm) : Vm :=
  upperHalf.foldl (fun vm i =>
    if present (vm.mem active i) then vm.write pml4 i (vm.mem active i) else vm) vm

/-- One round of `copy_pt`: both sides share the page, read-only and marked for copying. -/
def copyPte (dst src : Addr) (vm : Vm) (i : Fin 512) : Vm :=
  let e := vm.mem src i
  if present e then
    ((vm.write dst i (cowEntry e)).write src i (cowEntry e)).incref (leafAddr e)
  else vm

def copyPt (dst src : Addr) (vm : Vm) : Bool × Vm :=
  (true, (List.finRange 512).foldl (copyPte dst src) vm)

/-- The loop that copies the tables under some entries of `src`. The copy of a table is
linked also when copying it has failed, so that it can be freed. -/
def copyEntries (copyTable : Addr → Addr → Vm → Bool × Vm) (dst src : Addr) :
    List (Fin 512) → Vm → Bool × Vm
  | [], vm => (true, vm)
  | i :: is, vm =>
    if present (vm.mem src i) then
      match allocPageTable vm with
      | (none, vm) => (false, vm)
      | (some table, vm) =>
        match copyTable table (tableAddr (vm.mem src i)) vm with
        | (ok, vm) =>
          let vm := vm.write dst i (linkEntry table (vm.mem src i))
          if ok then copyEntries copyTable dst src is vm else (false, vm)
    else copyEntries copyTable dst src is vm

def copyPd (dst src : Addr) : Vm → Bool × Vm := copyEntries copyPt dst src (List.finRange 512)

def copyPdpt (dst src : Addr) : Vm → Bool × Vm := copyEntries copyPd dst src (List.finRange 512)

def vmmCopyUserspace (dst src : Addr) : Vm → Bool × Vm := copyEntries copyPdpt dst src lowerHalf

def freeUserPt (pt : Addr) (vm : Vm) : Vm :=
  (List.finRange 512).foldl (fun vm i =>
    if present (vm.mem pt i) then vm.freePage (leafAddr (vm.mem pt i)) else vm) vm

/-- The loop that frees the tables under the entries of a table. -/
def freeEntries (freeTable : Addr → Vm → Vm) (table : Addr) (vm : Vm) : Vm :=
  (List.finRange 512).foldl (fun vm i =>
    if present (vm.mem table i) then
      (freeTable (tableAddr (vm.mem table i)) vm).freePage (tableAddr (vm.mem table i))
    else vm) vm

def freeUserPd : Addr → Vm → Vm := freeEntries freeUserPt

def freeUserPdpt : Addr → Vm → Vm := freeEntries freeUserPd

/-- One round of `vmm_free_user_pages`. -/
def freePml4Entry (pml4 : Addr) (vm : Vm) (i : Fin 512) : Vm :=
  if present (vm.mem pml4 i) then
    ((freeUserPdpt (tableAddr (vm.mem pml4 i)) vm).freePage (tableAddr (vm.mem pml4 i))).write
      pml4 i 0
  else vm

def vmmFreeUserPages (pml4 : Addr) (vm : Vm) : Vm := lowerHalf.foldl (freePml4Entry pml4) vm

def vmmHandleCowFault (pml4 virt : Addr) (vm : Vm) : Bool × Vm :=
  match findPt vm pml4 virt with
  | none => (false, vm)
  | some pt =>
    let i := tableIndex virt 12
    let e := vm.mem pt i
    if present e = false ∨ isCow e = false then (false, vm)
    -- the only owner takes the page back
    else if pmmGetRefcount vm.pmm (leafAddr e) = 1 then
      (true, vm.write pt i (ownEntry (leafAddr e) e))
    else
      match vm.allocPage with
      | (phys, vm) =>
        if phys = 0 then (false, vm)
        else
          let vm := (vm.setPage phys (vm.mem (leafAddr e))).freePage (leafAddr e)
          (true, vm.write pt i (ownEntry phys e))

/-! ## Fields after each update -/

namespace Vm

variable (vm : Vm)

@[simp] theorem setPage_pmm (x : Addr) (page : Page) : (vm.setPage x page).pmm = vm.pmm := rfl

@[simp] theorem write_pmm (t : Addr) (i : Fin 512) (w : Word) : (vm.write t i w).pmm = vm.pmm := rfl

@[simp] theorem freePage_mem (x : Addr) : (vm.freePage x).mem = vm.mem := rfl

@[simp] theorem freePage_pmm (x : Addr) : (vm.freePage x).pmm = pmmFreePage vm.pmm x := rfl

@[simp] theorem incref_mem (x : Addr) : (vm.incref x).mem = vm.mem := rfl

theorem write_mem (t : Addr) (i : Fin 512) (w : Word) :
    (vm.write t i w).mem = update vm.mem t (update (vm.mem t) i w) := rfl

theorem setPage_mem (x : Addr) (page : Page) : (vm.setPage x page).mem = update vm.mem x page := rfl

theorem setPage_mem_self (x : Addr) (page : Page) : (vm.setPage x page).mem x = page := by
  simp [setPage]

theorem setPage_mem_of_ne {x y : Addr} (h : y ≠ x) (page : Page) :
    (vm.setPage x page).mem y = vm.mem y := by
  simp [setPage, h]

theorem write_mem_self (t : Addr) (i : Fin 512) (w : Word) :
    (vm.write t i w).mem t = update (vm.mem t) i w := setPage_mem_self ..

theorem write_mem_of_ne {t y : Addr} (h : y ≠ t) (i : Fin 512) (w : Word) :
    (vm.write t i w).mem y = vm.mem y := setPage_mem_of_ne _ h _

end Vm

/-! ## The walk of `vmm_map_page` -/

/-- What holds of each table that the walk of `vmm_map_page` comes to, by its path, holds of the
page table at the end; `F` holds if a table is missing and cannot be made. -/
theorem vmmMapPage_walk {P : List (Fin 512) → Addr → Vm → Prop} {F : Vm → Prop}
    {pml4 virt phys : Addr} {flags : Word} {ok : Bool} {vm vm' : Vm} (hstart : P [] pml4 vm)
    (hnext : ∀ k p s table vm1 res vm2, p.length + (k + 1) + 1 = 4 → (k + 1 = 3 → s = 39) →
      P p table vm1 → nextTable table (tableIndex virt s) flags vm1 = (res, vm2) →
      res.elim (F vm2) (P (p ++ [tableIndex virt s]) · vm2))
    (hrun : vmmMapPage pml4 virt phys flags vm = (ok, vm')) :
    (ok = false ∧ F vm') ∨
      ∃ pt vm1, P [tableIndex virt 39, tableIndex virt 30, tableIndex virt 21] pt vm1 ∧
        (present (vm1.mem pt (tableIndex virt 12)) = true ∧ ok = false ∧ vm' = vm1 ∨
          present (vm1.mem pt (tableIndex virt 12)) = false ∧ ok = true ∧
            vm' = vm1.write pt (tableIndex virt 12) (mapEntry phys flags)) := by
  rw [vmmMapPage] at hrun
  rcases hrun1 : nextTable pml4 (tableIndex virt 39) flags vm with ⟨res1, vm1⟩
  have h1 := hnext 2 [] 39 _ _ _ _ rfl (fun _ => rfl) hstart hrun1
  rw [hrun1] at hrun
  cases res1 with
  | none =>
    cases hrun
    exact .inl ⟨rfl, h1⟩
  | some pdpt =>
    dsimp only at hrun
    rcases hrun2 : nextTable pdpt (tableIndex virt 30) flags vm1 with ⟨res2, vm2⟩
    have h2 := hnext 1 _ 30 _ _ _ _ rfl (fun h => absurd h (by decide)) h1 hrun2
    rw [hrun2] at hrun
    cases res2 with
    | none =>
      cases hrun
      exact .inl ⟨rfl, h2⟩
    | some pd =>
      dsimp only at hrun
      rcases hrun3 : nextTable pd (tableIndex virt 21) flags vm2 with ⟨res3, vm3⟩
      have h3 := hnext 0 _ 21 _ _ _ _ rfl (fun h => absurd h (by decide)) h2 hrun3
      rw [hrun3] at hrun
      cases res3 with
      | none =>
        cases hrun
        exact .inl ⟨rfl, h3⟩
      | some pt =>
        dsimp only at hrun
        refine .inr ⟨pt, vm3, h3, ?_⟩
        split_ifs at hrun with hp
        · cases hrun
          exact .inl ⟨hp, rfl, rfl⟩
        · cases hrun
          exact .inr ⟨Bool.eq_false_of_not_eq_true hp, rfl, rfl⟩

/-! ## Allocation -/

section Alloc

variable {vm vm' : Vm} {x : Addr} (ok : vm.pmm.Ok)

include ok

theorem allocPage_spec (ha : vm.allocPage = (x, vm')) :
    (x = 0 ∧ vm' = vm ∧ ∀ y, vm.pmm.Managed y → vm.pmm.used y = true) ∨
      (x ≠ 0 ∧ vm'.mem = vm.mem ∧ vm.pmm.Taken x vm'.pmm) := by
  rcases hcall : pmmAllocPage vm.pmm with ⟨x', p'⟩
  rw [Vm.allocPage, hcall] at ha
  cases ha
  rcases Pmm.pmmAllocPage_spec ok hcall with ⟨hx, rfl, hfull⟩ | ⟨hx, ht⟩
  · exact .inl ⟨hx, rfl, hfull⟩
  · exact .inr ⟨hx, rfl, ht⟩

theorem allocPageTable_spec {t : Option Addr} (ha : allocPageTable vm = (t, vm')) :
    (t = none ∧ vm' = vm ∧ ∀ y, vm.pmm.Managed y → vm.pmm.used y = true) ∨
      ∃ x, t = some x ∧ vm.pmm.Taken x vm'.pmm ∧
        vm'.mem = update vm.mem x (fun _ => 0) := by
  unfold allocPageTable at ha
  rcases hcall : vm.allocPage with ⟨x, vm1⟩
  rw [hcall] at ha
  rcases allocPage_spec ok hcall with ⟨rfl, rfl, hfull⟩ | ⟨hx, hmem, ht⟩
  · cases ha
    exact .inl ⟨rfl, rfl, hfull⟩
  · simp only [if_neg hx] at ha
    cases ha
    refine .inr ⟨x, rfl, ht, ?_⟩
    rw [← hmem]
    rfl

end Alloc

end Crius.Mm
