import Crius.Process.ElfBuild
import Crius.Process.Machine
import Crius.Process.MemStep

/-!
# Rollback

What `task_fork`, `do_exec` and the task creation functions leave behind when they fail. All
of them build an address space beside those of the tasks and give it up when a step fails.
`AtRest` is the state of memory outside of such a call, `Raising` the state inside of it; both
compare with the state in which the call was made.
-/
namespace Crius.Process

open Fs Mm Lib Function Multiset Radix Kernel Pmm Option

variable {η : Type} {data path : List UInt8} {vm : Vm} {argv : List (List UInt8)} {r : Addr}
  {k : Kernel (Vm × Unit)}

/-- The spaces `roots` have the pages they had, and every other page in use belongs to the
heap or is reserved. -/
structure AtRest (O : Outside η) (e₀ : Vm × η) (roots : Multiset Addr) (reserved : Addr → Prop)
    (e : Vm × η) : Prop where
  forest : Forest e.1 roots 0 (fun _ => 0) fun x => O.heap e.2 x ∨ reserved x
  apart : ∀ x, O.heap e.2 x → ¬ reserved x
  kept : Kept e₀.1 roots reserved e.1
  files : O.fileRefs e.2 = O.fileRefs e₀.2
  contents : O.contents e.2 = O.contents e₀.2

/-- A space `r` is being built. -/
structure Raising (O : Outside η) (e₀ : Vm × η) (roots : Multiset Addr) (reserved : Addr → Prop)
    (r : Addr) (loose : Multiset Addr) (e : Vm × η) : Prop where
  building : Building e₀.1 roots reserved (O.heap e.2) r loose e.1
  files : O.fileRefs e.2 = O.fileRefs e₀.2
  contents : O.contents e.2 = O.contents e₀.2

section Spaces

variable {O : Outside η} {e₀ e e' : Vm × η} {roots loose : Multiset Addr} {reserved : Addr → Prop}
  {r x : Addr} {ok : Bool} {argv : List (List UInt8)} {path : List UInt8}
  {res : Option (Nat × List UInt8)}

theorem AtRest.owned (h : AtRest O e₀ roots reserved e) : O.Owned e :=
  ⟨roots, 0, _, reserved, h.forest, h.apart⟩

theorem Raising.owned (h : Raising O e₀ roots reserved r loose e) : O.Owned e :=
  ⟨_, loose, _, reserved, h.building.forest, h.building.apart⟩

theorem AtRest.moves (h : AtRest O e₀ roots reserved e) (hm : O.Moves e e') :
    AtRest O e₀ roots reserved e' := by
  obtain ⟨hforest, hapart, hframe⟩ := h.forest.heapMoves h.apart hm.heap
  have hkept : Kept e.1 roots reserved e'.1 := by
    apply Kept.of_eq h.forest.roots_frame
    intro x hx
    refine (hframe x (h.forest.guarded_inUse hx) fun hheap => ?_).2.2
    rcases hx with hx | hx
    · have hzero := (h.forest.accounts.apart x (.inl hheap)).2.2
      omega
    · exact h.apart x hheap hx
  exact ⟨hforest, hapart, h.kept.trans hkept, hm.files.trans h.files,
    hm.contents.trans h.contents⟩

theorem Raising.moves (h : Raising O e₀ roots reserved r loose e) (hm : O.Moves e e') :
    Raising O e₀ roots reserved r loose e' :=
  ⟨h.building.heapMoves hm.heap, hm.files.trans h.files, hm.contents.trans h.contents⟩

theorem discardSpace_eq (O : Outside η) (r : Addr) (e : Vm × η) :
    discardSpace (vmServices O) r e = ((vmmFreeUserPages r e.1).freePage r, e.2) := by
  simp only [discardSpace, vmServices]

/-- The space is given up. -/
theorem atRest_discardSpace (h : Beside e₀.1 roots reserved (O.heap e.2) r 0 e.1)
    (hfiles : O.fileRefs e.2 = O.fileRefs e₀.2) (hcontents : O.contents e.2 = O.contents e₀.2) :
    AtRest O e₀ roots reserved (discardSpace (vmServices O) r e) := by
  obtain ⟨hforest, hkept⟩ := h.discard
  rw [discardSpace_eq]
  exact ⟨hforest, h.apart, hkept, hfiles, hcontents⟩

theorem Raising.discard (h : Raising O e₀ roots reserved r 0 e) :
    AtRest O e₀ roots reserved (discardSpace (vmServices O) r e) :=
  atRest_discardSpace h.building.toBeside h.files h.contents

/-- A service that works on memory alone. -/
theorem onMemory {α : Type} {f : Vm → α × Vm} {a : α}
    (h : ((f e.1).1, ((f e.1).2, e.2)) = (a, e')) : ∃ vm, f e.1 = (a, vm) ∧ e' = (vm, e.2) := by
  cases h
  exact ⟨_, rfl, rfl⟩

theorem Raising.alloc (h : Raising O e₀ roots reserved r loose e)
    (hrun : (vmServices O).pmmAllocPage e = (x, e')) :
    x = 0 ∧ Raising O e₀ roots reserved r loose e' ∨
      x ≠ 0 ∧ Raising O e₀ roots reserved r (x ::ₘ loose) e' := by
  obtain ⟨vm, halloc, rfl⟩ := onMemory (f := Vm.allocPage) hrun
  rcases h.building.alloc halloc with ⟨hx, hsame⟩ | ⟨hx, hb⟩
  · rw [hsame]
    exact .inl ⟨hx, h⟩
  · exact .inr ⟨hx, hb, h.files, h.contents⟩

/-- A page of the stack or of the arguments is mapped. -/
theorem Raising.map {virt : Addr} (h : Raising O e₀ roots reserved r (x ::ₘ loose) e)
    (hvirt : virt < Elf.userAddrMax)
    (hrun : (vmServices O).vmmMapPage r virt x userStackFlags e = (ok, e')) :
    ok = false ∧ Raising O e₀ roots reserved r (x ::ₘ loose) e' ∨
      ok = true ∧ Raising O e₀ roots reserved r loose e' := by
  obtain ⟨vm, hmap, rfl⟩ := onMemory (f := vmmMapPage r virt x userStackFlags) hrun
  rcases h.building.map (Elf.tableIndex_lt hvirt) (by decide) (by decide) hmap with
    ⟨hok, hb⟩ | ⟨hok, hb⟩
  · exact .inl ⟨hok, hb, h.files, h.contents⟩
  · exact .inr ⟨hok, hb, h.files, h.contents⟩

theorem Raising.free (h : Raising O e₀ roots reserved r (x ::ₘ loose) e) :
    Raising O e₀ roots reserved r loose ((vmServices O).pmmFreePage x e) :=
  ⟨h.building.free, h.files, h.contents⟩

theorem stackPage_lt (p : Nat) :
    BitVec.ofNat 64 (userStackTop - (p + 1) * 0x1000) < Elf.userAddrMax := by
  rw [BitVec.lt_def, BitVec.toNat_ofNat]
  have hle : userStackTop - (p + 1) * 0x1000 ≤ 0x80000000 := Nat.sub_le _ _
  have hmax : Elf.userAddrMax.toNat = 0x800000000000 := by decide
  omega

theorem raising_mapUserStack (l : List Nat) (h : Raising O e₀ roots reserved r 0 e)
    (hrun : mapUserStack (vmServices O) r l e = (ok, e')) : Raising O e₀ roots reserved r 0 e' := by
  induction l generalizing e with
  | nil =>
    cases hrun
    exact h
  | cons p ps ih =>
    rcases halloc : (vmServices O).pmmAllocPage e with ⟨x, e1⟩
    rcases h.alloc halloc with ⟨rfl, h1⟩ | ⟨hx, h1⟩
    · simp only [mapUserStack, halloc, if_true] at hrun
      cases hrun
      exact h1
    · rcases hmap : (vmServices O).vmmMapPage r
        (BitVec.ofNat 64 (userStackTop - (p + 1) * 0x1000)) x userStackFlags e1 with ⟨done, e2⟩
      simp only [mapUserStack, halloc, if_neg hx, hmap] at hrun
      rcases h1.map (stackPage_lt p) hmap with ⟨rfl, h2⟩ | ⟨rfl, h2⟩
      · cases hrun
        exact h2.free
      · exact ih h2 hrun

theorem raising_mapArgPage (h : Raising O e₀ roots reserved r 0 e) (hargs : ArgsOk argv)
    (hrun : mapArgPage (vmServices O) r argv e = (ok, e')) :
    Raising O e₀ roots reserved r 0 e' := by
  rcases halloc : (vmServices O).pmmAllocPage e with ⟨x, e1⟩
  rcases h.alloc halloc with ⟨rfl, h1⟩ | ⟨hx, h1⟩
  · simp only [mapArgPage, halloc, if_true] at hrun
    cases hrun
    exact h1
  · have hloose : x ∈ x ::ₘ (0 : Multiset Addr) := mem_cons_self x 0
    obtain ⟨page, hfill⟩ :=
      onlyPage_fillArgs (h1.building.forest.isFrame_loose hloose) hargs e1.1
    have h2 : Raising O e₀ roots reserved r (x ::ₘ 0)
        ((vmServices O).fillArgPage x (argv.take Abi.MAX_ARGS) e1) := by
      refine ⟨?_, h1.files, h1.contents⟩
      show Building _ _ _ (O.heap e1.2) _ _ (fillArgs x (argv.take Abi.MAX_ARGS) e1.1)
      rw [hfill]
      exact h1.building.setLoose hloose page
    rcases hmap : (vmServices O).vmmMapPage r (BitVec.ofNat 64 argPageBase) x userStackFlags
      ((vmServices O).fillArgPage x (argv.take Abi.MAX_ARGS) e1) with ⟨done, e2⟩
    simp only [mapArgPage, halloc, if_neg hx, hmap] at hrun
    rcases h2.map (by decide) hmap with ⟨rfl, h3⟩ | ⟨rfl, h3⟩
    · cases hrun
      exact h3.free
    · cases hrun
      exact h3

theorem vmServices_vmmMapKernel (O : Outside η) (active pml4 : Addr) (e : Vm × η) :
    (vmServices O).vmmMapKernel active pml4 e = (vmmMapKernel active pml4 e.1, e.2) := by
  simp only [vmServices]

/-- A PML4 with the kernel's half. -/
theorem AtRest.createPml4 (active : Addr) (h : AtRest O e₀ roots reserved e)
    (hrun : (vmServices O).vmmCreatePml4 e = (r, e')) :
    r = 0 ∧ AtRest O e₀ roots reserved e' ∨
      r ≠ 0 ∧ Raising O e₀ roots reserved r 0 ((vmServices O).vmmMapKernel active r e') ∧
        Bare ((vmServices O).vmmMapKernel active r e').1.mem r := by
  obtain ⟨vm, hcreate, rfl⟩ := onMemory (f := vmmCreatePml4) hrun
  rw [vmServices_vmmMapKernel]
  rcases Building.start h.forest h.apart hcreate with ⟨hr, rfl⟩ | ⟨hr, hb, hbare⟩
  · exact .inl ⟨hr, h⟩
  · generalize vmmMapKernel active r vm = vm' at hb hbare
    exact .inr ⟨hr, ⟨hb.rebase h.kept, h.files, h.contents⟩, hbare⟩

/-- The calls of `readImage` keep what each of them keeps, and the data is what was read. -/
theorem readImage_rule {σ : Type} {S : Services σ} {P : σ → Prop} {e e' : σ}
    (hstat : ∀ e, P e → P (S.vfsStat path e).2) (hmalloc : ∀ size e, P e → P (S.kmalloc size e).2)
    (hread : ∀ size e, P e → P (S.vfsRead path size e).2) (hfree : ∀ ptr e, P e → P (S.kfree ptr e))
    (h : P e) (hrun : readImage S path e = (res, e')) :
    P e' ∧ ∀ elfBuf data, res = some (elfBuf, data) →
      ∃ size e1, P e1 ∧ (S.vfsRead path size e1).1 = some data ∧ data.length = size := by
  have hnone (e1 : σ) (h1 : P e1) (hres : (none, e1) = (res, e')) :
      P e' ∧ ∀ elfBuf data, res = some (elfBuf, data) →
        ∃ size e1, P e1 ∧ (S.vfsRead path size e1).1 = some data ∧ data.length = size := by
    cases hres
    exact ⟨h1, fun _ _ hsome => nomatch hsome⟩
  rcases hs : S.vfsStat path e with ⟨size, e1⟩
  have h1 : P e1 := by simpa only [hs] using hstat e h
  cases size with
  | none =>
    simp only [readImage, hs] at hrun
    exact hnone e1 h1 hrun
  | some elfSize =>
    by_cases hlarge : elfSize > maxElfSize
    · simp only [readImage, hs, if_pos hlarge] at hrun
      exact hnone e1 h1 hrun
    rcases hm : S.kmalloc elfSize e1 with ⟨elfBuf, e2⟩
    have h2 : P e2 := by simpa only [hm] using hmalloc elfSize e1 h1
    by_cases hbuf : elfBuf = 0
    · simp only [readImage, hs, if_neg hlarge, hm, if_pos hbuf] at hrun
      exact hnone e2 h2 hrun
    rcases hv : S.vfsRead path elfSize e2 with ⟨data, e3⟩
    have h3 : P e3 := by simpa only [hv] using hread elfSize e2 h2
    cases data with
    | none =>
      simp only [readImage, hs, if_neg hlarge, hm, if_neg hbuf, hv] at hrun
      exact hnone _ (hfree elfBuf e3 h3) hrun
    | some data =>
      by_cases hlen : data.length = elfSize
      · simp only [readImage, hs, if_neg hlarge, hm, if_neg hbuf, hv, if_pos hlen] at hrun
        cases hrun
        refine ⟨h3, fun _ _ hres => ?_⟩
        cases hres
        exact ⟨elfSize, e2, h2, congrArg Prod.fst hv, hlen⟩
      · simp only [readImage, hs, if_neg hlarge, hm, if_neg hbuf, hv, if_neg hlen] at hrun
        exact hnone _ (hfree elfBuf e3 h3) hrun

/-- Every segment of the file that the loader would reach lies in the user half. -/
def UserFile (data : List UInt8) : Prop :=
  ∀ around elf, imageOf data around = some elf → elf.HeaderOk → elf.UserOnly

variable (hO : O.Ok)

include hO

theorem atRest_readImage (h : AtRest O e₀ roots reserved e)
    (hrun : readImage (vmServices O) path e = (res, e')) : AtRest O e₀ roots reserved e' ∧
      ∀ elfBuf data, res = some (elfBuf, data) → O.contents e₀.2 path = some data := by
  obtain ⟨hquiet, hdata⟩ := readImage_rule (fun e he => he.moves (hO.vfsStat path e he.owned))
    (fun size e he => he.moves (hO.kmalloc size e he.owned))
    (fun size e he => he.moves (hO.vfsRead path size e he.owned))
    (fun ptr e he => he.moves (hO.kfree ptr e he.owned)) h hrun
  refine ⟨hquiet, fun elfBuf data hres => ?_⟩
  obtain ⟨size, e1, h1, hread, hlen⟩ := hdata elfBuf data hres
  rw [← h1.contents]
  exact hO.read path size e1 data hread hlen

theorem raising_loadSegments {active : Addr} {elfBuf entry : Nat} (hfile : UserFile data)
    (h : Raising O e₀ roots reserved r 0 ((vmServices O).vmmMapKernel active r e))
    (hrun : loadSegments (vmServices O) active r elfBuf data e = (entry, e')) :
    Raising O e₀ roots reserved r 0 e' := by
  rcases hload : (vmServices O).elfLoadToTask r data ((vmServices O).vmmMapKernel active r e) with
    ⟨entry', e1⟩
  simp only [loadSegments, hload] at hrun
  cases hrun
  generalize (vmServices O).vmmMapKernel active r e = e2 at h hload
  have h1 : Raising O e₀ roots reserved r 0
      ((Elf.elfLoadToTask r (imageOf data (O.around e2)) e2.1).2.vm, e2.2) :=
    ⟨Elf.building_elfLoadToTask (fun elf himage hok => hfile _ elf himage hok) h.building,
      h.files, h.contents⟩
  have heq : e1 = ((Elf.elfLoadToTask r (imageOf data (O.around e2)) e2.1).2.vm, e2.2) :=
    (congrArg Prod.snd hload).symm
  rw [heq]
  exact h1.moves (hO.kfree elfBuf _ h1.owned)

theorem raising_buildSpace {active : Addr} {elfBuf : Nat} {res : Option (BitVec 64 × Nat)}
    (hfile : UserFile data) (hargs : ArgsOk argv) (h : AtRest O e₀ roots reserved e)
    (hrun : buildSpace (vmServices O) active elfBuf data argv e = (res, e')) :
    res = none ∧ AtRest O e₀ roots reserved e' ∨
      ∃ cr3 entry, res = some (cr3, entry) ∧ cr3 ≠ 0 ∧
        Raising O e₀ roots reserved cr3 0 e' := by
  have hfailed (cr3 : Addr) (e1 : Vm × η) (h1 : Raising O e₀ roots reserved cr3 0 e1)
      (hres : (none, discardSpace (vmServices O) cr3 e1) = (res, e')) :
      res = none ∧ AtRest O e₀ roots reserved e' := by
    cases hres
    exact ⟨rfl, h1.discard⟩
  rcases hcreate : (vmServices O).vmmCreatePml4 e with ⟨cr3, e1⟩
  rcases h.createPml4 active hcreate with ⟨hr, h1⟩ | ⟨hr, h1, -⟩
  · simp only [buildSpace, hcreate, if_pos hr] at hrun
    cases hrun
    exact .inl ⟨rfl, h1.moves (hO.kfree elfBuf e1 h1.owned)⟩
  rcases hload : loadSegments (vmServices O) active cr3 elfBuf data e1 with ⟨entry, e2⟩
  have h2 := raising_loadSegments hO hfile h1 hload
  by_cases hentry : entry = 0
  · simp only [buildSpace, hcreate, if_neg hr, hload, if_pos hentry] at hrun
    exact .inl (hfailed cr3 e2 h2 hrun)
  rcases harg : mapArgPage (vmServices O) cr3 argv e2 with ⟨ok1, e3⟩
  have h3 := raising_mapArgPage h2 hargs harg
  rcases hstack : mapUserStack (vmServices O) cr3 (List.range userStackPages) e3 with ⟨ok2, e4⟩
  have h4 := raising_mapUserStack _ h3 hstack
  cases ok1 with
  | false =>
    simp only [buildSpace, hcreate, if_neg hr, hload, if_neg hentry, harg, Bool.not_false,
      if_true] at hrun
    exact .inl (hfailed cr3 e3 h3 hrun)
  | true =>
    cases ok2 with
    | false =>
      simp only [buildSpace, hcreate, if_neg hr, hload, if_neg hentry, harg, Bool.not_true,
        Bool.false_eq_true, if_false, hstack, Bool.not_false, if_true] at hrun
      exact .inl (hfailed cr3 e4 h4 hrun)
    | true =>
      simp only [buildSpace, hcreate, if_neg hr, hload, if_neg hentry, harg, Bool.not_true,
        Bool.false_eq_true, if_false, hstack] at hrun
      cases hrun
      exact .inr ⟨cr3, entry, rfl, hr, h4⟩

/-- The steps of `do_exec` before it changes the task. -/
theorem raising_loadImage {k : Kernel (Vm × η)} {res : Option (BitVec 64 × Nat × Nat)}
    (hfile : ∀ data, O.contents e₀.2 path = some data → UserFile data) (hargs : ArgsOk argv)
    (h : AtRest O e₀ roots reserved k.env) (hrun : loadImage (vmServices O) k path argv = (res, e')) :
    res = none ∧ AtRest O e₀ roots reserved e' ∨
      ∃ cr3 entry kstack, res = some (cr3, entry, kstack) ∧ cr3 ≠ 0 ∧ k.currentTask ≠ none ∧
        Raising O e₀ roots reserved cr3 0 e' := by
  rcases hread : readImage (vmServices O) path k.env with ⟨image, e1⟩
  obtain ⟨h1, hdata⟩ := atRest_readImage hO h hread
  cases image with
  | none =>
    simp only [loadImage, hread] at hrun
    cases hrun
    exact .inl ⟨rfl, h1⟩
  | some image =>
    obtain ⟨elfBuf, data⟩ := image
    have huser := hfile data (hdata elfBuf data rfl)
    rcases hbuild : buildSpace (vmServices O) k.cr3 elfBuf data argv e1 with ⟨space, e2⟩
    rcases raising_buildSpace hO huser hargs h1 hbuild with
      ⟨rfl, h2⟩ | ⟨cr3, entry, rfl, hcr3, h2⟩
    · simp only [loadImage, hread, hbuild] at hrun
      cases hrun
      exact .inl ⟨rfl, h2⟩
    by_cases hcurrent : k.currentTask = none
    · simp only [loadImage, hread, hbuild, if_pos hcurrent] at hrun
      cases hrun
      exact .inl ⟨rfl, h2.discard⟩
    have hmoves := hO.kmalloc taskStackSize e2 h2.owned
    rcases hmalloc : (vmServices O).kmalloc taskStackSize e2 with ⟨kstack, e3⟩
    have h3 : Raising O e₀ roots reserved cr3 0 e3 := by
      have heq : (O.kmalloc taskStackSize e2).2 = e3 := congrArg Prod.snd hmalloc
      rw [heq] at hmoves
      exact h2.moves hmoves
    by_cases hkstack : kstack = 0
    · simp only [loadImage, hread, hbuild, if_neg hcurrent, hmalloc, if_pos hkstack] at hrun
      cases hrun
      exact .inl ⟨rfl, h3.discard⟩
    · simp only [loadImage, hread, hbuild, if_neg hcurrent, hmalloc, if_neg hkstack] at hrun
      cases hrun
      exact .inr ⟨cr3, entry, kstack, rfl, hcr3, hcurrent, h3⟩

end Spaces

/-! ## Failed calls -/

/-- The PML4s of the tasks other than the idle task. -/
def taskRoots (tasks : Pid → Task) : Multiset Addr :=
  (Finset.univ.filter fun i => i ≠ idle ∧ (tasks i).state ≠ .unused).val.map fun i => (tasks i).cr3

/-- The page allocator's counts agree with the address spaces of the tasks, and the page
tables of the idle task, which were made before boot, are reserved. -/
structure Consistent (O : Outside η) (reserved : Addr → Prop) (k : Kernel (Vm × η)) : Prop where
  forest : Forest k.env.1 (taskRoots k.tasks) 0 (fun _ => 0)
    fun x => O.heap k.env.2 x ∨ reserved x
  apart : ∀ x, O.heap k.env.2 x → ¬ reserved x
  idleFrame : IsFrame (k.tasks idle).cr3
  idleTables : ∀ x n, Radix.Below shape k.env.1.mem 4 (rootWord (k.tasks idle).cr3) x n → reserved x

section Failed

variable {O : Outside η} {reserved : Addr → Prop} {k k' : Kernel (Vm × η)} {i : Pid}
  {e e₀ e' : Vm × η} {roots : Multiset Addr} {tasks : Pid → Task}

theorem mem_taskRoots (hi : i ≠ idle) (hs : (tasks i).state ≠ .unused) :
    (tasks i).cr3 ∈ taskRoots tasks :=
  mem_map_of_mem _ (Finset.mem_filter.mpr ⟨Finset.mem_univ i, hi, hs⟩)

theorem card_taskRoots (tasks : Pid → Task) : (taskRoots tasks).card ≤ maxTasks := by
  rw [taskRoots, card_map]
  calc (Finset.univ.filter fun i => i ≠ idle ∧ (tasks i).state ≠ .unused).card
      ≤ (Finset.univ : Finset Pid).card := Finset.card_filter_le _ _
    _ = maxTasks := Finset.card_fin maxTasks

/-- A page is shared by 64 tasks at most, so no count is full. -/
theorem leaves_lt {loose : Multiset Addr} {lost : Addr → ℕ} {held : Addr → Prop}
    (h : Forest vm (taskRoots tasks) loose lost held) (x : Addr) :
    treeLeaves vm.mem (taskRoots tasks) x < 255 := by
  have hle := treeLeaves_le_card h.slim x
  have hcard := card_taskRoots tasks
  unfold maxTasks at hcard
  omega

namespace Consistent

variable (h : Consistent O reserved k)

include h

theorem isFrame (hs : (k.tasks i).state ≠ .unused) : IsFrame (k.tasks i).cr3 := by
  by_cases hi : i = idle
  · rw [hi]
    exact h.idleFrame
  · exact h.forest.roots_frame _ (mem_taskRoots hi hs)

end Consistent

/-- The filled space of a task under construction. -/
structure Raised (O : Outside η) (e₀ : Vm × η) (roots : Multiset Addr) (reserved : Addr → Prop)
    (r : Addr) (e : Vm × η) : Prop where
  beside : Beside e₀.1 roots reserved (O.heap e.2) r 0 e.1
  files : O.fileRefs e.2 = O.fileRefs e₀.2
  contents : O.contents e.2 = O.contents e₀.2

theorem raised_copy {root : Addr} {ok : Bool} (hroot : root ∈ roots)
    (hcount : ∀ x, treeLeaves e₀.1.mem roots x < 255) (h : Raising O e₀ roots reserved r 0 e)
    (hbare : Bare e.1.mem r) (hrun : (vmServices O).vmmCopyUserspace r root e = (ok, e')) :
    Raised O e₀ roots reserved r e' := by
  obtain ⟨vm, hcopy, rfl⟩ := onMemory (f := vmmCopyUserspace r root) hrun
  refine ⟨h.building.copy hbare hroot (fun x => ?_) hcopy, h.files, h.contents⟩
  rw [h.building.kept.treeLeaves_eq]
  exact hcount x

theorem raised_mapUserStack {ok : Bool} (l : List Nat) (h : Raising O e₀ roots reserved r 0 e)
    (hrun : mapUserStack (vmServices O) r l e = (ok, e')) : Raised O e₀ roots reserved r e' := by
  have h' := raising_mapUserStack l h hrun
  exact ⟨h'.building.toBeside, h'.files, h'.contents⟩

variable (hO : O.Ok)

include hO

theorem acquireSpace_raised (fill : BitVec 64 → Vm × η → Bool × (Vm × η)) (slot : Pid)
    (hfill : ∀ r e ok e', Raising O e₀ roots reserved r 0 e → Bare e.1.mem r →
      fill r e = (ok, e') → Raised O e₀ roots reserved r e')
    (h : AtRest O e₀ roots reserved k.env) :
    ∃ ok t e', acquireSpace (vmServices O) fill k slot = (ok, k.put slot t e') ∧
      t.state = (k.tasks slot).state ∧
        (ok = false ∧ AtRest O e₀ roots reserved e' ∨
          ok = true ∧ t.cr3 ≠ 0 ∧ Raised O e₀ roots reserved t.cr3 e') := by
  obtain ⟨ok, t, e, hrun, hcore, -, stack, e₁, hstack, hcalls⟩ :=
    acquireSpace_cases (vmServices O) fill k slot
  refine ⟨ok, t, e, hrun, (congrArg Task.state hcore :), ?_⟩
  have hfree {e : Vm × η} (he : AtRest O e₀ roots reserved e) :=
    he.moves (hO.kfree stack e he.owned)
  have h1 := h.moves (hO.kmalloc taskStackSize k.env h.owned)
  rw [show O.kmalloc taskStackSize k.env = (stack, e₁) from hstack] at h1
  rcases hcalls with ⟨rfl, -, rfl⟩ | ⟨-, cr3, e₂, hcr3, hcalls⟩
  · exact .inl ⟨rfl, h1⟩
  have h2 := h1.createPml4 k.cr3 hcr3
  rcases hcalls with ⟨rfl, rfl, rfl⟩ | ⟨hne, e₃, hf, hcalls⟩
  · exact .inl ⟨rfl, hfree (h2.resolve_right fun h => h.1 rfl).2⟩
  obtain ⟨-, hraising, hbare⟩ := h2.resolve_left fun h => hne h.1
  have h3 := hfill cr3 _ ok e₃ hraising hbare hf
  rcases hcalls with ⟨rfl, rfl⟩ | ⟨rfl, rfl, -, -, rfl⟩
  · exact .inl ⟨rfl, hfree (atRest_discardSpace h3.beside h3.files h3.contents)⟩
  · exact .inr ⟨rfl, hne, h3⟩

/-- What a fork comes to: without a free slot it changes nothing, and a slot is left free or gets a
copy of the caller's space. -/
theorem taskFork_outcome {pid : Pid} (hcurrent : k.currentTask = some pid)
    (hroot : (k.tasks pid).cr3 ∈ roots) (hcount : ∀ x, treeLeaves k.env.1.mem roots x < 255)
    (h : AtRest O k.env roots reserved k.env) (frameRip : Nat) :
    taskFork (vmServices O) k frameRip = (none, k) ∨
      ∃ slot f t e, (k.tasks slot).state = .unused ∧ t.state = .unused ∧
        (taskFork (vmServices O) k frameRip = (none, (k.modify slot f).put slot t e) ∧
            AtRest O k.env roots reserved e ∨
          taskFork (vmServices O) k frameRip =
              (some slot,
                forkCommit (vmServices O) ((k.modify slot f).put slot t e) pid slot frameRip) ∧
            Raised O k.env roots reserved t.cr3 e) := by
  rw [taskFork, hcurrent]
  cases halloc : allocTask k.tasks with
  | none => exact .inl rfl
  | some slot =>
    have hslot := allocTask_unused halloc
    obtain ⟨ok, t, e, hrun, hstate, hok⟩ := acquireSpace_raised hO
      (fun cr3 => (vmServices O).vmmCopyUserspace cr3 (k.tasks pid).cr3)
      (k := k.modify slot fun t => { t with name := copyName taskNameLen (k.tasks pid).name }) slot
      (fun r e ok e' he hbare hrun => raised_copy hroot hcount he hbare hrun) h
    rw [modify_tasks, if_pos rfl] at hstate
    refine .inr ⟨slot, fun t => { t with name := copyName taskNameLen (k.tasks pid).name }, t, e,
      hslot, hstate.trans hslot, ?_⟩
    dsimp only
    rw [hrun]
    rcases hok with ⟨rfl, hq⟩ | ⟨rfl, -, hraised⟩
    · exact .inl ⟨rfl, hq⟩
    · exact .inr ⟨rfl, hraised⟩

/-- The same for a new task; one that is created while another runs does not run yet. -/
theorem taskCreateArgs_outcome (h : AtRest O k.env roots reserved k.env) (name : List UInt8)
    (entry arg : Nat) : taskCreateArgs (vmServices O) k name entry arg = (none, k) ∨
      ∃ slot f t e, (k.tasks slot).state = .unused ∧ t.state = .unused ∧
        (taskCreateArgs (vmServices O) k name entry arg = (none, (k.modify slot f).put slot t e) ∧
            AtRest O k.env roots reserved e ∨
          ((taskCreateArgs (vmServices O) k name entry arg).1 = some slot ∧
            (k.currentTask ≠ none → (taskCreateArgs (vmServices O) k name entry arg).2 =
              ((k.modify slot f).put slot t e).modify slot (freshTask k.currentTask entry arg))) ∧
            Raised O k.env roots reserved t.cr3 e) := by
  rw [taskCreateArgs]
  cases halloc : allocTask k.tasks with
  | none => exact .inl rfl
  | some slot =>
    have hslot := allocTask_unused halloc
    obtain ⟨ok, t, e, hrun, hstate, hok⟩ := acquireSpace_raised hO
      (fun cr3 => mapUserStack (vmServices O) cr3 (List.range userStackPages))
      (k := k.modify slot fun t => { t with name := copyName taskNameLen name }) slot
      (fun r e ok e' he _ hrun => raised_mapUserStack _ he hrun) h
    rw [modify_tasks, if_pos rfl] at hstate
    refine .inr ⟨slot, fun t => { t with name := copyName taskNameLen name }, t, e, hslot,
      hstate.trans hslot, ?_⟩
    dsimp only [initTaskStack]
    rw [hrun]
    rcases hok with ⟨rfl, hq⟩ | ⟨rfl, -, hraised⟩
    · exact .inl ⟨rfl, hq⟩
    · simp only [if_true, Bool.not_true, Bool.false_eq_true, if_false]
      refine .inr ⟨⟨?_, fun hcurrent => ?_⟩, hraised⟩
      · split <;> rfl
      · split
        · next hnone => exact absurd hnone hcurrent
        · rfl

end Failed

/-! ## A small machine

The heap has room for every request, and the file layer has one file. -/

def oneFile (data : List UInt8) : Outside Unit where
  kmalloc _ e := (0x1000, e)
  kfree _ e := e
  fileGet _ s := s
  filePut _ e := e
  vfsStat _ e := (some data.length, e)
  vfsRead _ _ e := (some data, e)
  around _ _ := 0
  heap _ _ := False
  fileRefs _ _ := 0
  contents _ _ := some data

theorem oneFile_ok (data : List UInt8) : (oneFile data).Ok := by
  constructor
  case read =>
    intro _ _ _ data' hread _
    exact hread
  all_goals
    intros
    first
      | rfl
      | exact .refl
      | exact ⟨.refl, rfl, rfl⟩

/-- Seven free pages above the PML4 of a task; the PML4 of the idle task comes after them. -/
def lowVm : Vm where
  pmm := { pagesBase := 0x100000, bitmap := fun i => decide (i = 0 ∨ 8 ≤ i),
           pageRefs := fun i => if i = 0 ∨ 8 ≤ i then 1 else 0, pagesFree := 7, lastScan := 0 }
  mem := fun _ _ => 0

def lowReserved (x : Addr) : Prop := ∃ i < maxPages, 8 ≤ i ∧ x = lowVm.pmm.address i

/-- The init task runs, and there are no other tasks but the idle task. -/
def lowKernel : Kernel (Vm × Unit) :=
  { Kernel.zeroed (lowVm, ()) with
    tasks := fun i =>
      if i = init then { Task.zeroed with state := .running, cr3 := 0x100000 }
      else if i = idle then { Task.zeroed with state := .ready, cr3 := 0x108000 }
      else Task.zeroed
    currentTask := some init
    cr3 := 0x100000 }

theorem forest_lowVm : Forest lowVm {0x100000} 0 (fun _ => 0) fun x => False ∨ lowReserved x := by
  -- The PML4 is a page of its own before it is a root.
  suffices h : Forest lowVm 0 {0x100000} (fun _ => 0) fun x => False ∨ lowReserved x from
    h.plant fun _ _ => show present 0 = false by decide
  have hroot : lowVm.pmm.Managed 0x100000 := ⟨0, by decide, by decide⟩
  refine ⟨⟨⟨by decide, by decide, by decide, by decide, fun i => ?_⟩, fun x hx => ?_, fun x hx => ?_,
    fun _ _ => rfl, fun x hm hu => ?_, fun x hx => ?_⟩, by simp, by simp⟩
  · show (if i = 0 ∨ 8 ≤ i then 1 else 0) ≤ 255
    split <;> omega
  · simp only [treeTables_zero, treeLeaves_zero, count_singleton] at hx ⊢
    split_ifs at hx ⊢ with heq
    · subst heq
      exact ⟨hroot, by decide, by decide, by decide⟩
    · omega
  · simp only [treeTables_zero, treeLeaves_zero, count_singleton] at hx ⊢
    split_ifs at hx ⊢
    · rfl
    · omega
  · obtain ⟨i, hi, rfl⟩ := hm
    rw [used, index_address hi] at hu
    have hbit : i = 0 ∨ 8 ≤ i := of_decide_eq_true hu
    rcases hbit with rfl | hbit
    · left
      have hself : lowVm.pmm.address 0 = 0x100000 := by decide
      simp [hself]
    · exact .inr (.inr ⟨i, hi, hbit, rfl⟩)
  · obtain ⟨i, hi, hbit, rfl⟩ := hx.resolve_left id
    refine ⟨⟨i, hi, rfl⟩, ?_, ?_⟩
    · rw [used, index_address hi]
      exact decide_eq_true (.inr hbit)
    · simp only [treeTables_zero, treeLeaves_zero, count_singleton, Nat.add_zero]
      refine if_neg fun heq => ?_
      have hzero : lowVm.pmm.index 0x100000 = 0 := by decide
      rw [← heq, index_address hi] at hzero
      omega

/-- A kernel with this memory and a bare PML4 for each of the two tasks. -/
theorem consistent_low (data : List UInt8) (henv : k.env = (lowVm, ()))
    (hroots : taskRoots k.tasks = {0x100000}) (hidle : (k.tasks idle).cr3 = 0x108000) :
    Consistent (oneFile data) lowReserved k := by
  constructor
  · rw [henv, hroots]
    exact forest_lowVm
  · exact fun _ hx => hx.elim
  · rw [hidle]
    decide
  · rw [henv, hidle]
    intro x n hx
    have hframe : IsFrame (0x108000 : Addr) := by decide
    obtain ⟨-, ⟨rfl, -⟩ | ⟨i, -, hbelow⟩⟩ := hx
    · refine ⟨8, by decide, le_refl 8, ?_⟩
      rw [shape_table]
      exact tableAddr_rootWord hframe
    · have hdead : shape.live (0 : Word) = false := by decide
      exact absurd hbelow (below_dead hdead)

end Crius.Process
