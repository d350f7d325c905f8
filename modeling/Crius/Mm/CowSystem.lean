import Crius.Mm.SmallSpace

/-!
# Copy-on-write and page permissions

Runs of forks and copy-on-write faults on any number of address spaces. Each space remembers
the entries that its pages had before they were first shared; those of a child are those of
its parent.

`copy_pt` marks every present entry for copying, whether it was writable or not, so the fault
handler cannot tell a page that was read-only from one that was writable.
-/
namespace Crius.Mm

open Lib Run Option BitVec List

def noExec (e : Word) : Bool := e &&& pageNx != 0

/-- An address space, and the entries of its pages before they were first shared. -/
structure Space where
  pml4 : Addr
  origin : List (Fin 512) → Option Word

structure CowState where
  vm : Vm
  spaces : List Space

inductive CowOp where
  | fork (i : Nat)
  | fault (i : Nat) (virt : Addr)

/-- One fork, or one copy-on-write fault at a user address. -/
def cowStep (s : CowState) : CowOp → Option CowState
  | .fork i => do
    let parent ← s.spaces[i]?
    match forkSpace parent.pml4 s.vm with
    | (some child, vm) => some ⟨vm, s.spaces ++ [⟨child, parent.origin⟩]⟩
    | (none, vm) => some ⟨vm, s.spaces⟩
  | .fault i virt => do
    let space ← s.spaces[i]?
    if (tableIndex virt 39).val < 256 then
      some ⟨(vmmHandleCowFault space.pml4 virt s.vm).2, s.spaces⟩
    else none

/-- The PML4s of the spaces. -/
def CowState.roots (s : CowState) : Multiset Addr := ↑(s.spaces.map Space.pml4)

/-- Address spaces none of whose pages has been shared yet. -/
structure CowBoot (s : CowState) : Prop where
  forest : ∃ lost held, Forest s.vm s.roots 0 lost held
  origin : ∀ space ∈ s.spaces, space.origin = leafAt s.vm.mem space.pml4
  unshared : ∀ space ∈ s.spaces, ∀ p w, leafAt s.vm.mem space.pml4 p = some w → isCow w = false

/-- A fork shares the page at `p` only if it is writable, or was when it was first shared. -/
def SharesWritable (p : List (Fin 512)) (s : CowState) : CowOp → Prop
  | .fork i => ∀ parent, s.spaces[i]? = some parent → ∀ w,
      leafAt s.vm.mem parent.pml4 p = some w → writable w = true ∨ isCow w = true
  | .fault _ _ => True

/-! ## Entries -/

theorem noExec_eq (e : Word) : noExec e = e.getLsbD 63 := and_bit_ne_zero getLsbD_pageNx

theorem noExec_cowEntry (e : Word) : noExec (cowEntry e) = noExec e := by
  simp only [noExec_eq, cowEntry, getLsbD_leafAddr _ (show 63 < 64 by decide), getLsbD_leafFlags,
    getLsbD_pageCow, getLsbD_pageWritable, getLsbD_or, getLsbD_and, getLsbD_not]
  simp

theorem noExec_ownEntry {x : Addr} (hx : IsFrame x) (e : Word) : noExec (ownEntry x e) = noExec e := by
  simp only [noExec_eq, ownEntry, hx.getLsbD (.inr (Nat.le_refl 63)), getLsbD_leafFlags,
    getLsbD_pageCow, getLsbD_pageWritable, getLsbD_or, getLsbD_and, getLsbD_not]
  simp

variable {w : Word} {p : List (Fin 512)} {s s' : CowState} {space : Space} {op : CowOp}
  {held : Addr → Prop}

theorem Cowed.noExec {w' : Word} (h : Cowed w w') : noExec w' = noExec w := by
  rcases h with rfl | ⟨-, rfl⟩
  · rfl
  · exact noExec_cowEntry w

/-! ## One step -/

/-- What one step does to the entry of a page: it is as it was, it has become shared, or it
has been marked for copying and is mapped writable now. -/
inductive EntryStep : Word → Word → Prop where
  | cowed {w w' : Word} (h : Cowed w w') : EntryStep w w'
  | owned {w : Word} {x : Addr} (hx : IsFrame x) (hcow : isCow w = true) :
      EntryStep w (ownEntry x w)

theorem EntryStep.noExec {w' : Word} (h : EntryStep w w') : noExec w' = noExec w := by
  cases h with
  | cowed h => exact h.noExec
  | owned hx _ => exact noExec_ownEntry hx w

/-- Where the entries of a page of a space come from. -/
structure Inherits (s : CowState) (op : CowOp) (s' : CowState) (space' : Space)
    (p : List (Fin 512)) (space : Space) : Prop where
  mem : space ∈ s.spaces
  origin : space'.origin = space.origin
  step : Option.Rel EntryStep (leafAt s.vm.mem space.pml4 p) (leafAt s'.vm.mem space'.pml4 p)
  cause : leafAt s'.vm.mem space'.pml4 p = leafAt s.vm.mem space.pml4 p ∨
    (∃ i parent, op = .fork i ∧ s.spaces[i]? = some parent ∧ parent.pml4 = space.pml4) ∨
    ∃ w, leafAt s.vm.mem space.pml4 p = some w ∧ isCow w = true

theorem rel_entryStep_refl (o : Option Word) : Option.Rel EntryStep o o := by
  cases o with
  | none => exact .none
  | some w => exact .some (.cowed (.inl rfl))

theorem rel_cowEntry {mem : Addr → Page} {pml4 : Addr} :
    Option.Rel EntryStep (leafAt mem pml4 p) ((leafAt mem pml4 p).map cowEntry) := by
  cases h : leafAt mem pml4 p with
  | none => exact .none
  | some w => exact .some (.cowed (.inr ⟨Radix.live_of_find h, rfl⟩))

theorem rel_of_cowed {o o' : Option Word} (h : Option.Rel Cowed o o') : Option.Rel EntryStep o o' := by
  cases h with
  | none => exact .none
  | some h => exact .some (.cowed h)

theorem mem_roots (h : space ∈ s.spaces) : space.pml4 ∈ s.roots :=
  Multiset.mem_coe.mpr (mem_map_of_mem h)

section Step

variable {s s' : CowState} {op : CowOp} {lost : Addr → ℕ} {held : Addr → Prop}

/-- Every step keeps the accounts, and each entry comes from one before. -/
theorem cowStep_spec (h : Forest s.vm s.roots 0 lost held) (hs : cowStep s op = some s') :
    (∃ lost', Forest s'.vm s'.roots 0 lost' held) ∧
      ∀ space' ∈ s'.spaces, ∀ p, ∃ space, Inherits s op s' space' p space := by
  cases op with
  | fork i =>
    rw [cowStep] at hs
    obtain ⟨parent, hparent, hs⟩ := bind_eq_some_iff.mp hs
    have hin := mem_of_getElem? hparent
    rcases hrun : forkSpace parent.pml4 s.vm with ⟨res, vm⟩
    rw [hrun] at hs
    obtain ⟨hforked, lost', -, hforest⟩ := h.fork (mem_roots hin) hrun
    -- the spaces that were there before
    have hold (spaces : List Space) (space : Space) (hspace : space ∈ s.spaces)
        (p : List (Fin 512)) : Inherits s (.fork i) ⟨vm, spaces⟩ space p space := by
      by_cases hpar : space.pml4 = parent.pml4
      · refine ⟨hspace, rfl, ?_, .inr (.inl ⟨i, parent, rfl, hparent, hpar.symm⟩)⟩
        rw [hpar]
        exact rel_of_cowed (hforked.edited p)
      · have hsame := hforked.others space.pml4 (mem_roots hspace) hpar p
        refine ⟨hspace, rfl, ?_, .inl hsame⟩
        rw [show leafAt (CowState.mk vm spaces).vm.mem space.pml4 p = _ from hsame]
        exact rel_entryStep_refl _
    cases res with
    | none =>
      cases hs
      exact ⟨⟨lost', hforest⟩, fun space hspace p => ⟨space, hold _ space hspace p⟩⟩
    | some child =>
      cases hs
      refine ⟨⟨lost', ?_⟩, fun space hspace p => ?_⟩
      · have hroots : (CowState.mk vm (s.spaces ++ [⟨child, parent.origin⟩])).roots =
            child ::ₘ s.roots := by
          simp only [CowState.roots, map_append, map_cons, map_nil]
          rw [← Multiset.coe_add, add_comm]
          rfl
        rw [hroots]
        exact hforest
      · rcases mem_append.mp hspace with hspace | hspace
        · exact ⟨space, hold _ space hspace p⟩
        · obtain rfl := mem_singleton.mp hspace
          refine ⟨parent, hin, rfl, ?_, .inr (.inl ⟨i, parent, rfl, hparent, rfl⟩)⟩
          rw [show leafAt vm.mem child p = _ from ((hforked.copy child rfl).2.2 p).1]
          exact rel_cowEntry
  | fault i virt =>
    rw [cowStep] at hs
    obtain ⟨target, htarget, hs⟩ := bind_eq_some_iff.mp hs
    have hin := mem_of_getElem? htarget
    split at hs
    · next hlow =>
      cases hs
      rcases hrun : vmmHandleCowFault target.pml4 virt s.vm with ⟨ok, vm⟩
      obtain ⟨hfault, hforest, hothers, hroots⟩ := h.handleCowFault (mem_roots hin) hlow hrun
      refine ⟨⟨lost, hforest⟩, fun space hspace p => ?_⟩
      suffices hboth : Option.Rel EntryStep (leafAt s.vm.mem space.pml4 p) (leafAt vm.mem space.pml4 p) ∧
          (leafAt vm.mem space.pml4 p = leafAt s.vm.mem space.pml4 p ∨
            ∃ w, leafAt s.vm.mem space.pml4 p = some w ∧ isCow w = true) from
        ⟨space, hspace, rfl, hboth.1, hboth.2.imp_right .inr⟩
      by_cases hself : space.pml4 = target.pml4 ∧ p = pagePath virt
      · obtain ⟨hself, rfl⟩ := hself
        rw [hself]
        cases hfault with
        | refused _ => exact ⟨rel_entryStep_refl _, .inl rfl⟩
        | owned hleaf hcow _ hafter _ =>
          rw [hleaf, hafter]
          exact ⟨.some (.owned (isFrame_leafAddr _) hcow), .inr ⟨_, rfl, hcow⟩⟩
        | copied hleaf hcow _ _ hframe hafter _ _ =>
          rw [hleaf, hafter]
          exact ⟨.some (.owned hframe hcow), .inr ⟨_, rfl, hcow⟩⟩
      · have hsame : leafAt vm.mem space.pml4 p = leafAt s.vm.mem space.pml4 p := by
          by_cases hsp : space.pml4 = target.pml4
          · rw [hsp]
            exact hothers p fun hp => hself ⟨hsp, hp⟩
          · exact hroots _ (mem_roots hspace) hsp p
        rw [hsame]
        exact ⟨rel_entryStep_refl _, .inl rfl⟩
    · cases hs

end Step

/-! ## Whole runs -/

/-- The entries of the page at `p` that were read-only before they were shared are read-only,
and not marked for copying. -/
def KeepsReadOnly (p : List (Fin 512)) (s : CowState) : Prop :=
  ∀ space ∈ s.spaces, ∀ o w, space.origin p = some o → leafAt s.vm.mem space.pml4 p = some w →
    writable o = false → writable w = false ∧ isCow w = false

def KeepsNoExec (s : CowState) : Prop :=
  ∀ space ∈ s.spaces, ∀ p,
    Option.Rel (fun o w => noExec w = noExec o) (space.origin p) (leafAt s.vm.mem space.pml4 p)

theorem Inherits.keepsReadOnly {space' : Space} (h : Inherits s op s' space' p space)
    (hkeep : KeepsReadOnly p s) (hcond : SharesWritable p s op) {o : Word}
    (ho : space'.origin p = some o) (hw : leafAt s'.vm.mem space'.pml4 p = some w)
    (hro : writable o = false) : writable w = false ∧ isCow w = false := by
  rw [h.origin] at ho
  have hbefore (w0 : Word) (hw0 : leafAt s.vm.mem space.pml4 p = some w0) :
      ¬(writable w0 = true ∨ isCow w0 = true) := by
    obtain ⟨hnw, hnc⟩ := hkeep space h.mem o w0 ho hw0 hro
    simp [hnw, hnc]
  rcases h.cause with hsame | ⟨i, parent, rfl, hparent, hpml4⟩ | ⟨w0, hw0, hcow⟩
  · rw [hsame] at hw
    exact hkeep space h.mem o w ho hw hro
  · cases hstep : leafAt s.vm.mem space.pml4 p with
    | none =>
      have hrel := h.step
      rw [hstep, hw] at hrel
      cases hrel
    | some w0 =>
      exact absurd (hcond parent hparent w0 (hpml4 ▸ hstep)) (hbefore w0 hstep)
  · exact absurd (.inr hcow) (hbefore w0 hw0)

theorem Inherits.keepsNoExec {space' : Space} (h : Inherits s op s' space' p space)
    (hkeep : KeepsNoExec s) : Option.Rel (fun o w => noExec w = noExec o) (space'.origin p)
      (leafAt s'.vm.mem space'.pml4 p) := by
  have hbefore := hkeep space h.mem p
  have hstep := h.step
  rw [h.origin]
  revert hbefore hstep
  generalize space.origin p = o
  generalize leafAt s.vm.mem space.pml4 p = e
  generalize leafAt s'.vm.mem space'.pml4 p = e'
  intro hbefore hstep
  cases hstep with
  | none =>
    cases hbefore
    exact .none
  | some hstep =>
    cases hbefore with
    | some hbefore => exact .some (hstep.noExec.trans hbefore)

/-- The accounts hold, and `K` does. -/
def Tracked (held : Addr → Prop) (K : CowState → Prop) (s : CowState) : Prop :=
  (∃ lost, Forest s.vm s.roots 0 lost held) ∧ K s

theorem CowBoot.keepsNoExec (h : CowBoot s) : KeepsNoExec s := by
  intro space hspace p
  rw [h.origin space hspace]
  cases leafAt s.vm.mem space.pml4 p with
  | none => exact .none
  | some w => exact .some rfl

theorem CowBoot.keepsReadOnly (h : CowBoot s) (p : List (Fin 512)) : KeepsReadOnly p s := by
  intro space hspace o w ho hw hro
  rw [h.origin space hspace, hw] at ho
  obtain rfl := some.inj ho
  exact ⟨hro, h.unshared space hspace p w hw⟩

theorem Tracked.step_noExec (h : Tracked held KeepsNoExec s) (hs : cowStep s op = some s') :
    Tracked held KeepsNoExec s' := by
  obtain ⟨⟨lost, hforest⟩, hkeep⟩ := h
  obtain ⟨hforest', hinherits⟩ := cowStep_spec hforest hs
  refine ⟨hforest', fun space hspace p => ?_⟩
  obtain ⟨before, hbefore⟩ := hinherits space hspace p
  exact hbefore.keepsNoExec hkeep

theorem Tracked.step_readOnly (h : Tracked held (KeepsReadOnly p) s) (hc : SharesWritable p s op)
    (hs : cowStep s op = some s') : Tracked held (KeepsReadOnly p) s' := by
  obtain ⟨⟨lost, hforest⟩, hkeep⟩ := h
  obtain ⟨hforest', hinherits⟩ := cowStep_spec hforest hs
  refine ⟨hforest', fun space hspace o w ho hw hro => ?_⟩
  obtain ⟨before, hbefore⟩ := hinherits space hspace p
  exact hbefore.keepsReadOnly hkeep hc ho hw hro

/-- In every run of forks and faults the no-execute bit of every page is what it was before
the page was first shared. A page whose forks all met the condition and that was read-only
before it was first shared is read-only in every space, and the fault handler refuses it. -/
theorem cow_keeps_permissions {s₀ s : CowState} {ops : List CowOp} (hboot : CowBoot s₀)
    (hr : run cowStep s₀ ops = some s) :
    (∀ space ∈ s.spaces, ∀ p o w, space.origin p = some o →
      leafAt s.vm.mem space.pml4 p = some w → noExec w = noExec o) ∧
    ∀ p, Along cowStep (SharesWritable p) s₀ ops → ∀ space ∈ s.spaces, ∀ o,
      space.origin p = some o → writable o = false →
        (∀ w, leafAt s.vm.mem space.pml4 p = some w → writable w = false) ∧
        ∀ virt, (tableIndex virt 39).val < 256 → pagePath virt = p →
          vmmHandleCowFault space.pml4 virt s.vm = (false, s.vm) := by
  obtain ⟨lost0, held, hforest0⟩ := hboot.forest
  constructor
  · have hstart : Tracked held KeepsNoExec s₀ := ⟨⟨lost0, hforest0⟩, hboot.keepsNoExec⟩
    have hkeep : Tracked held KeepsNoExec s :=
      run_invariant cowStep (fun _ _ _ h hs => h.step_noExec hs) hstart hr
    intro space hspace p o w ho hw
    have hrel := hkeep.2 space hspace p
    rw [ho, hw] at hrel
    cases hrel with
    | some h => exact h
  · intro p hcond
    have hstart : Tracked held (KeepsReadOnly p) s₀ := ⟨⟨lost0, hforest0⟩, hboot.keepsReadOnly p⟩
    have hkeep : Tracked held (KeepsReadOnly p) s :=
      run_invariant_along cowStep (fun _ _ _ h hc hs => h.step_readOnly hc hs) hstart hcond hr
    obtain ⟨⟨lost, hforest⟩, hkeep⟩ := hkeep
    intro space hspace o ho hro
    refine ⟨fun w hw => (hkeep space hspace o w ho hw hro).1, fun virt hlow hpath => ?_⟩
    subst hpath
    rcases hrun : vmmHandleCowFault space.pml4 virt s.vm with ⟨ok, vm⟩
    obtain ⟨hfault, -⟩ := hforest.handleCowFault (mem_roots hspace) hlow hrun
    cases hfault with
    | refused _ => rfl
    | owned hleaf hcow _ _ _ =>
      rw [(hkeep space hspace o _ ho hleaf hro).2] at hcow
      cases hcow
    | copied hleaf hcow _ _ _ _ _ _ =>
      rw [(hkeep space hspace o _ ho hleaf hro).2] at hcow
      cases hcow

theorem cowStep_fork {i : Nat} {parent : Space} {child : Addr} {vm : Vm}
    (hparent : s.spaces[i]? = some parent) (hfork : forkSpace parent.pml4 s.vm = (some child, vm)) :
    cowStep s (.fork i) = some ⟨vm, s.spaces ++ [⟨child, parent.origin⟩]⟩ := by
  rw [cowStep, hparent, bind_eq_bind, bind_some, hfork]

theorem cowStep_fault {i : Nat} {virt : Addr} (hspace : s.spaces[i]? = some space)
    (hlow : (tableIndex virt 39).val < 256) :
    cowStep s (.fault i virt) = some ⟨(vmmHandleCowFault space.pml4 virt s.vm).2, s.spaces⟩ := by
  rw [cowStep, hspace, bind_eq_bind, bind_some, if_pos hlow]

/-- A space with one page, mapped with `flags` at address 0. -/
def singlePage (flags : Word) : CowState where
  vm := onePage flags
  spaces := [⟨0x100000, leafAt (onePage flags).mem 0x100000⟩]

/-- The page at address 0 is the only one of the space. -/
theorem isCow_of_single {mem : Addr → Page} {r : Addr} {o w : Word} {p : List (Fin 512)}
    (hself : leafAt mem r (pagePath 0) = some o) (hcow : isCow o = false)
    (hothers : ∀ q, q ≠ pagePath 0 → leafAt mem r q = none) (hw : leafAt mem r p = some w) :
    isCow w = false := by
  by_cases hp : p = pagePath 0
  · rw [hp, hself] at hw
    rwa [← some.inj hw]
  · rw [hothers p hp] at hw
    cases hw

theorem cowBoot_singlePage {flags : Word} (hflags : present flags = true)
    (hclean : leafAddr flags = 0) (hcow : isCow (mapEntry 0x101000 flags) = false)
    (hdone : (vmmMapPage 0x100000 0 0x101000 flags bareVm).1 = true) : CowBoot (singlePage flags) := by
  obtain ⟨hforest, -, -, hself, hothers⟩ := onePage_spec hflags hclean hdone
  refine ⟨⟨_, _, hforest⟩, fun space hspace => ?_, fun space hspace p w hw => ?_⟩
  · rw [mem_singleton.mp hspace]
    rfl
  · rw [mem_singleton.mp hspace] at hw
    exact isCow_of_single hself hcow hothers hw

/-- A second space, with a writable page at address 0. -/
def twoPages : Vm :=
  (vmmMapPage 0x105000 0 0x106000 7 ((vmmCreatePml4 (onePage 5)).2.allocPage).2).2

def twoSpaces : CowState where
  vm := twoPages
  spaces := [⟨0x105000, leafAt twoPages.mem 0x105000⟩, ⟨0x100000, leafAt twoPages.mem 0x100000⟩]

theorem twoPages_spec : Forest twoPages (0x105000 ::ₘ {0x100000}) 0 (fun _ => 0) (fun _ => False) ∧
    Sparse twoPages ∧ Room (maxPages - 10) twoPages ∧
    leafAt twoPages.mem 0x105000 (pagePath 0) = some (mapEntry 0x106000 7) ∧
    leafAt twoPages.mem 0x100000 (pagePath 0) = some (mapEntry 0x101000 5) ∧
    (∀ p, p ≠ pagePath 0 → leafAt twoPages.mem 0x105000 p = none) ∧
    ∀ p, p ≠ pagePath 0 → leafAt twoPages.mem 0x100000 p = none := by
  obtain ⟨hforest, hsparse, hroom, hself, hothers⟩ :=
    onePage_spec (show present 5 = true by decide) (by decide) (by decide)
  obtain ⟨h, hsparse', hroom', hself', hothers', hsame⟩ := newSpace_spec (m := maxPages - 10)
    hforest hsparse hroom (show present 7 = true by decide) (by decide)
    (Prod.ext (by decide +kernel) rfl) (show (0x105000 : Addr) ≠ 0 by decide)
    (Prod.ext (by decide +kernel) rfl) (show (0x106000 : Addr) ≠ 0 by decide)
    (Prod.ext (by decide +kernel) rfl)
  have hroot : (0x100000 : Addr) ∈ ({0x100000} : Multiset Addr) := Multiset.mem_singleton_self _
  exact ⟨h, hsparse', hroom', hself', (hsame _ hroot _).trans hself, hothers', fun p hp =>
    (hsame _ hroot p).trans (hothers p hp)⟩

/-- The space with the writable page is forked, and then there is a fault at the page of the other
one, which is read-only. -/
theorem cow_keeps_permissions_fork :
    CowBoot twoSpaces ∧ ∃ s, run cowStep twoSpaces [.fork 0, .fault 1 0] = some s ∧
      ∃ space ∈ s.spaces, space.origin (pagePath 0) = some (mapEntry 0x101000 5) ∧
        ∀ w, leafAt s.vm.mem space.pml4 (pagePath 0) = some w → writable w = false := by
  obtain ⟨hforest, hsparse, hroom, hnew, hself, hnone, hnone'⟩ := twoPages_spec
  have hboot : CowBoot twoSpaces := by
    refine ⟨⟨_, _, hforest⟩, fun space hspace => ?_, fun space hspace p w hw => ?_⟩ <;>
      rcases mem_pair.mp hspace with rfl | rfl
    · rfl
    · rfl
    · exact isCow_of_single hnew (by decide) hnone hw
    · exact isCow_of_single hself (by decide) hnone' hw
  obtain ⟨child, vm, hfork, -⟩ :=
    forkSpace_sparse (m := maxPages - 14) 0x105000 hforest.ok hsparse hroom
  have hfirst := cowStep_fork (s := twoSpaces) (i := 0) rfl hfork
  have hrun : run cowStep twoSpaces [.fork 0, .fault 1 0] = some
      ⟨(vmmHandleCowFault 0x100000 0 vm).2,
        twoSpaces.spaces ++ [⟨child, leafAt twoPages.mem 0x105000⟩]⟩ := by
    rw [run_cons, hfirst, bind_some, run_cons, cowStep_fault rfl (by decide), bind_some, run_nil]
  have halong : Along cowStep (SharesWritable (pagePath 0)) twoSpaces [.fork 0, .fault 1 0] := by
    refine ⟨fun parent hparent w hw => ?_, fun _ _ => ⟨trivial, fun _ _ => trivial⟩⟩
    cases hparent
    rw [← some.inj (hnew.symm.trans hw)]
    exact .inl (by decide)
  have hin : (⟨0x100000, leafAt twoPages.mem 0x100000⟩ : Space) ∈
      twoSpaces.spaces ++ [⟨child, leafAt twoPages.mem 0x105000⟩] :=
    mem_append_left _ (mem_cons_of_mem _ mem_cons_self)
  have horigin : (⟨0x100000, leafAt twoPages.mem 0x100000⟩ : Space).origin (pagePath 0) =
      some (mapEntry 0x101000 5) := by
    dsimp only
    exact hself
  exact ⟨hboot, _, hrun, _, hin, horigin,
    ((cow_keeps_permissions hboot hrun).2 _ halong _ hin _ horigin (by decide)).1⟩

/-- A page that is mapped without `PAGE_WRITABLE` is forked and then written to: the fault
handler makes it writable. -/
theorem cow_makes_text_writable :
    CowBoot (singlePage 5) ∧ ∃ s, run cowStep (singlePage 5) [.fork 0, .fault 0 0] = some s ∧
      ∃ space ∈ s.spaces, ∃ o w, space.origin (pagePath 0) = some o ∧ writable o = false ∧
        leafAt s.vm.mem space.pml4 (pagePath 0) = some w ∧ writable w = true := by
  have hdone : (vmmMapPage 0x100000 0 0x101000 5 bareVm).1 = true := by decide
  obtain ⟨hforest, hsparse, hroom, hself, -⟩ := onePage_spec (by decide) (by decide) hdone
  refine ⟨cowBoot_singlePage (by decide) (by decide) (by decide) hdone, ?_⟩
  have hroot : (0x100000 : Addr) ∈ ({0x100000} : Multiset Addr) := Multiset.mem_singleton_self _
  obtain ⟨child, vm1, hfork, -, hroom1⟩ :=
    forkSpace_sparse (m := maxPages - 9) 0x100000 hforest.ok hsparse hroom
  obtain ⟨hforked, lost, -, hforest1⟩ := hforest.fork hroot hfork
  have hshared := ((hforked.copy child rfl).2.2 (pagePath 0)).2
  rw [hself, map_some] at hshared
  rcases hfault : vmmHandleCowFault 0x100000 0 vm1 with ⟨ok, vm2⟩
  obtain ⟨houtcome, -⟩ := hforest1.handleCowFault (Multiset.mem_cons_of_mem hroot) (by decide) hfault
  refine ⟨⟨vm2, [⟨0x100000, leafAt (onePage 5).mem 0x100000⟩,
    ⟨child, leafAt (onePage 5).mem 0x100000⟩]⟩, ?_,
    ⟨0x100000, leafAt (onePage 5).mem 0x100000⟩, mem_cons_self, mapEntry 0x101000 5, ?_⟩
  · have hfirst := cowStep_fork (s := singlePage 5) (i := 0) rfl hfork
    rw [run_cons, hfirst, bind_some, run_cons, cowStep_fault rfl (by decide), bind_some,
      run_nil]
    rw [hfault]
    rfl
  · cases houtcome with
    | refused hfull =>
      obtain ⟨x, hm, hfree⟩ := Room.exists_free (m := maxPages - 10) hroom1
      rw [hfull _ hshared (isCow_cowEntry _) x hm] at hfree
      cases hfree
    | owned _ _ _ hafter _ =>
      dsimp only
      exact ⟨_, hself, by decide, hafter, writable_ownEntry _ _⟩
    | copied _ _ _ _ _ hafter _ _ =>
      dsimp only
      exact ⟨_, hself, by decide, hafter, writable_ownEntry _ _⟩

end Crius.Mm
