import Crius.Mm.SmallSpace

/-!
# No page is lost

The life of an address space: a PML4 is created, pages are mapped into it, it may be copied,
and in the end each space is freed. Whatever fails on the way, the allocator is then as it was
before: the same bitmap, the same counts and the same `pages_free`. The pages that were in use
at the start are the `held` ones of the forest; `Ledger` says that their counts stay.
-/
namespace Crius.Mm

open Lib List Pmm

/-! ## The calls -/

/-- A call of `vmm_map_page` for a page that the caller has just allocated and filled. -/
structure MapCall where
  virt : Addr
  flags : Word
  contents : Page

/-- A user address, and flags that mark the entry present and name no frame. -/
def MapCall.Proper (c : MapCall) : Prop :=
  (tableIndex c.virt 39).val < 256 ∧ present c.flags = true ∧ leafAddr c.flags = 0

/-- The page is freed by the caller when it cannot be mapped. -/
def mapFresh (pml4 : Addr) (vm : Vm) (c : MapCall) : Vm :=
  match vm.allocPage with
  | (phys, vm) =>
    if phys = 0 then vm
    else
      match vmmMapPage pml4 c.virt phys c.flags (vm.setPage phys c.contents) with
      | (true, vm) => vm
      | (false, vm) => vm.freePage phys

/-- `vmm_free_user_pages` and then `pmm_free_page` of the PML4. -/
def freeSpace (pml4 : Addr) (vm : Vm) : Vm := (vmmFreeUserPages pml4 vm).freePage pml4

/-- What becomes of a space: it is freed, or copied first and then both are freed. -/
inductive Ending where
  | freed
  | copied (parentFirst : Bool)

/-- `vmm_copy_userspace` into a second new PML4, whether it succeeds or not, and the frees. -/
def copyThenFree (parentFirst : Bool) (pml4 : Addr) (vm : Vm) : Vm :=
  match vmmCreatePml4 vm with
  | (child, vm) =>
    if child = 0 then freeSpace pml4 vm
    else if parentFirst then freeSpace child (freeSpace pml4 (vmmCopyUserspace child pml4 vm).2)
    else freeSpace pml4 (freeSpace child (vmmCopyUserspace child pml4 vm).2)

/-- A space from its creation to its end. -/
def spaceLife (calls : List MapCall) (ending : Ending) (vm : Vm) : Vm :=
  match vmmCreatePml4 vm with
  | (pml4, vm) =>
    if pml4 = 0 then vm
    else
      match ending with
      | .freed => freeSpace pml4 (calls.foldl (mapFresh pml4) vm)
      | .copied parentFirst => copyThenFree parentFirst pml4 (calls.foldl (mapFresh pml4) vm)

/-! ## The allocator -/

/-- What holds of the allocator between calls: `pages_free` is the number of clear bits, and a
free page has no references. -/
structure Pmm.Settled (p : Pmm) : Prop where
  ok : p.Ok
  counted : p.pagesFree = p.clearBits
  blank : ∀ x, p.Managed x → p.used x = false → p.count x = 0

/-- The arrays of `pmm.c` and `pages_free` are the same. -/
structure Pmm.SamePages (p p' : Pmm) : Prop where
  bitmap : ∀ i < maxPages, p'.bitmap i = p.bitmap i
  pageRefs : ∀ i < maxPages, p'.pageRefs i = p.pageRefs i
  pagesFree : p'.pagesFree = p.pagesFree

/-- `pages_free` against the bitmap, with the bound that the scan needs. -/
def Pmm.Counted (p : Pmm) : Prop := p.lastScan ≤ maxPages ∧ p.pagesFree = p.clearBits

section Counted

variable {p : Pmm} (h : p.Counted)

include h

theorem counted_alloc : (pmmAllocPage p).2.Counted := by
  unfold pmmAllocPage
  split
  · next i hi =>
    obtain ⟨hlt, hbit⟩ := scan_eq_some h.1 hi
    have hclear : (p.take i).clearBits + 1 = p.clearBits := clearBits_set hlt hbit rfl
    have hcount := h.2
    refine ⟨hlt, ?_⟩
    show p.pagesFree - 1 = (p.take i).clearBits
    omega
  · exact h

theorem counted_free (x : Addr) : (pmmFreePage p x).Counted := by
  simp only [pmmFreePage]
  split
  · exact h
  split
  · exact h
  split
  · exact h
  · next hlt hbit _ =>
    have hclear : (p.drop (p.index x)).clearBits = p.clearBits + 1 :=
      clearBits_clear (by omega) (Bool.eq_true_of_not_eq_false hbit) rfl
    refine ⟨?_, ?_⟩
    · show (if p.index x < p.lastScan then p.index x else p.lastScan) ≤ maxPages
      split <;> omega
    · rw [hclear, ← h.2]
      rfl

theorem counted_incref (x : Addr) : (pmmIncref p x).Counted := by
  simp only [pmmIncref]
  split
  · exact h
  split
  · exact h
  · exact h

theorem counted_freeAll (l : List Addr) : (l.foldl pmmFreePage p).Counted := by
  induction l generalizing p with
  | nil => exact h
  | cons x l ih => exact ih (counted_free h x)

end Counted

/-! ## What the calls of `vmm.c` do to the allocator -/

section Rules

variable {P : Pmm → Prop} (halloc : ∀ p, P p → P (pmmAllocPage p).2) {vm : Vm}

include halloc

theorem allocPageTable_pmm (h : P vm.pmm) : P (allocPageTable vm).2.pmm := by
  have h1 : P vm.allocPage.2.pmm := halloc _ h
  rw [allocPageTable]
  split
  next phys vm1 hcall =>
    rw [hcall] at h1
    split
    · exact h1
    · exact h1

theorem nextTable_pmm (table : Addr) (i : Fin 512) (flags : Word) (h : P vm.pmm) :
    P (nextTable table i flags vm).2.pmm := by
  have h1 := allocPageTable_pmm halloc h
  rw [nextTable]
  split
  · exact h
  · split
    next vm1 hcall => rwa [hcall] at h1
    next vm1 hcall => rwa [hcall] at h1

/-- `vmm_map_page` does nothing to the allocator but to allocate. -/
theorem vmmMapPage_pmm (pml4 virt phys : Addr) (flags : Word) (h : P vm.pmm) :
    P (vmmMapPage pml4 virt phys flags vm).2.pmm := by
  rcases hrun : vmmMapPage pml4 virt phys flags vm with ⟨ok, vm'⟩
  rcases vmmMapPage_walk (P := fun _ _ vm1 => P vm1.pmm) (F := fun vm1 => P vm1.pmm) h
    (fun _ _ s table vm1 res vm2 _ _ h1 hnext => by
      have h2 := nextTable_pmm halloc table (tableIndex virt s) flags h1
      rw [hnext] at h2
      cases res with
      | none => exact h2
      | some next => exact h2) hrun
    with ⟨-, hfail⟩ | ⟨pt, vm1, h1, ⟨-, -, rfl⟩ | ⟨-, -, rfl⟩⟩
  · exact hfail
  · exact h1
  · exact h1

theorem copyEntries_pmm {copyTable : Addr → Addr → Vm → Bool × Vm}
    (hcopy : ∀ dst src vm, P vm.pmm → P (copyTable dst src vm).2.pmm) (dst src : Addr)
    (is : List (Fin 512)) (h : P vm.pmm) : P (copyEntries copyTable dst src is vm).2.pmm := by
  induction is generalizing vm with
  | nil => exact h
  | cons i is ih =>
    have h1 := allocPageTable_pmm halloc h
    rw [copyEntries]
    split
    · split
      next vm1 hcall => rwa [hcall] at h1
      next table vm1 hcall =>
        rw [hcall] at h1
        have h2 := hcopy table (tableAddr (vm1.mem src i)) vm1 h1
        split
        next ok vm2 hcall =>
          rw [hcall] at h2
          split
          · exact ih h2
          · exact h2
    · exact ih h

variable (hincref : ∀ p x, P p → P (pmmIncref p x))

include hincref

omit halloc in
theorem copyPt_pmm (dst src : Addr) (vm : Vm) (h : P vm.pmm) : P (copyPt dst src vm).2.pmm := by
  rw [copyPt]
  generalize finRange 512 = is
  induction is generalizing vm with
  | nil => exact h
  | cons i is ih =>
    refine ih _ ?_
    rw [copyPte]
    split
    · exact hincref _ _ h
    · exact h

/-- `vmm_copy_userspace` does nothing to the allocator but to allocate and to count. -/
theorem vmmCopyUserspace_pmm (dst src : Addr) (h : P vm.pmm) :
    P (vmmCopyUserspace dst src vm).2.pmm := by
  have hpd (dst src : Addr) (vm : Vm) (h : P vm.pmm) : P (copyPd dst src vm).2.pmm := by
    rw [copyPd]
    exact copyEntries_pmm halloc (copyPt_pmm hincref) dst src _ h
  have hpdpt (dst src : Addr) (vm : Vm) (h : P vm.pmm) : P (copyPdpt dst src vm).2.pmm := by
    rw [copyPdpt]
    exact copyEntries_pmm halloc hpd dst src _ h
  rw [vmmCopyUserspace]
  exact copyEntries_pmm halloc hpdpt dst src _ h

end Rules

/-! ## The pages that were in use -/

/-- The allocator is settled, and the pages that were in use before have kept their counts. -/
structure Ledger (p₀ p : Pmm) : Prop where
  settled : p.Settled
  base : p.pagesBase = p₀.pagesBase
  kept : ∀ x, p₀.InUse x → p.InUse x ∧ p.count x = p₀.count x

namespace Ledger

variable {p₀ p p' : Pmm}

theorem refl (h : p.Settled) : Ledger p p := ⟨h, rfl, fun _ hx => ⟨hx, rfl⟩⟩

theorem grow {new : List Addr} {add : Addr → ℕ} (h : Ledger p₀ p) (hg : Grown p new add p')
    (hadd : ∀ x, 0 < add x → p.InUse x ∧ ¬p₀.InUse x) (hcounted : p'.Counted) : Ledger p₀ p' := by
  refine ⟨⟨hg.ok, hcounted.2, fun x hx hfree => ?_⟩, hg.base.trans h.base, fun x hx => ?_⟩
  · rw [hg.managed] at hx
    have hused := hg.used x hx
    rw [hfree] at hused
    have hnone : ¬(p.used x = true ∨ x ∈ new) := fun hor => by cases hused.mpr hor
    have hunused : p.used x = false := Bool.eq_false_of_not_eq_true fun hu => hnone (.inl hu)
    have hzero : ¬0 < add x := fun hpos => hnone (.inl (hadd x hpos).1.2)
    rw [hg.count x hx fun hnew => hnone (.inr hnew), h.settled.blank x hx hunused]
    omega
  · obtain ⟨hin, hcount⟩ := h.kept x hx
    have hzero : ¬0 < add x := fun hpos => (hadd x hpos).2 hx
    have hle : p.count x ≤ 255 := h.settled.ok.refs_le _
    refine ⟨hg.inUse hin, ?_⟩
    rw [hg.count x hin.1 (hg.not_mem_new hin), ← hcount]
    omega

theorem counted (h : Ledger p₀ p) : p.Counted := ⟨h.settled.ok.scan_le, h.settled.counted⟩

theorem alloc (h : Ledger p₀ p) : Ledger p₀ (pmmAllocPage p).2 := by
  have hcounted := counted_alloc h.counted
  rcases hcall : pmmAllocPage p with ⟨x, p'⟩
  rw [hcall] at hcounted
  rcases pmmAllocPage_spec h.settled.ok hcall with ⟨-, rfl, -⟩ | ⟨-, ht⟩
  · exact h
  · exact h.grow (.take ht) (fun _ hpos => absurd hpos (Nat.lt_irrefl 0)) hcounted

/-- Frees of pages that were not in use at the start. -/
theorem freeAll {l : List Addr} (h : Ledger p₀ p)
    (hl : ∀ x ∈ l, p.InUse x ∧ ¬p₀.InUse x ∧ l.count x ≤ p.count x) :
    Ledger p₀ (l.foldl pmmFreePage p) := by
  obtain ⟨ok, hbase, hused, hcount⟩ := freeAll_spec h.settled.ok fun x hx =>
    ⟨(hl x hx).1.1, (hl x hx).1.2, (hl x hx).2.2⟩
  have hm (x : Addr) := managed_congr hbase x
  refine ⟨⟨ok, (counted_freeAll h.counted l).2, fun x hx hfree => ?_⟩, hbase.trans h.base,
    fun x hx => ?_⟩
  · rw [hm] at hx
    have hiff := hused x hx
    rw [hfree] at hiff
    rw [hcount x hx]
    cases hu : p.used x with
    | false => rw [h.settled.blank x hx hu, Nat.zero_sub]
    | true =>
      by_cases hxl : x ∈ l
      · have hlast : ¬l.count x < p.count x := fun hlt => by cases hiff.mpr ⟨hu, fun _ => hlt⟩
        omega
      · cases hiff.mpr ⟨hu, fun hin => absurd hin hxl⟩
  · obtain ⟨hin, hold⟩ := h.kept x hx
    have hxl : x ∉ l := fun hxl => (hl x hxl).2.1 hx
    refine ⟨⟨(hm x).mpr hin.1, (hused x hin.1).mpr ⟨hin.2, fun hin => absurd hin hxl⟩⟩, ?_⟩
    rw [hcount x hin.1, count_eq_zero_of_not_mem hxl, Nat.sub_zero, hold]

end Ledger

/-! ## The spaces since then -/

/-- Since the allocator was `p₀`, the spaces `roots` have been built, and the pages `loose`
allocated. No other page has been taken, and no count has been lost. -/
structure Lease (p₀ : Pmm) (vm : Vm) (roots loose : Multiset Addr) : Prop where
  forest : Forest vm roots loose (fun _ => 0) p₀.InUse
  ledger : Ledger p₀ vm.pmm

namespace Lease

variable {p₀ : Pmm} {vm vm' : Vm} {roots loose : Multiset Addr} {r x : Addr}

theorem start (h : vm.pmm.Settled) : Lease vm.pmm vm 0 0 :=
  ⟨forest_empty h.ok fun _ => Iff.rfl, Ledger.refl h⟩

/-- A page with a use is in use, and was not at the start. -/
theorem owned (h : Lease p₀ vm roots loose)
    (hx : 0 < loose.count x + treeTables vm.mem roots x + treeLeaves vm.mem roots x) :
    vm.pmm.InUse x ∧ ¬p₀.InUse x ∧ vm.pmm.count x =
      loose.count x + treeTables vm.mem roots x + treeLeaves vm.mem roots x := by
  obtain ⟨hm, hu, -, hsum⟩ := h.forest.accounts.owned x hx
  refine ⟨⟨hm, hu⟩, fun hheld => ?_, hsum⟩
  have hzero := (h.forest.accounts.apart x hheld).2.2
  omega

theorem createPml4 (h : Lease p₀ vm roots loose) (hrun : vmmCreatePml4 vm = (r, vm')) :
    (r = 0 ∧ vm' = vm) ∨ (r ≠ 0 ∧ Bare vm'.mem r ∧ Lease p₀ vm' (r ::ₘ roots) loose) := by
  rcases h.forest.createPml4 hrun with hfail | ⟨hr, ht, -, hbare, hforest⟩
  · exact .inl hfail
  · have hledger := allocPageTable_pmm (fun _ => Ledger.alloc) h.ledger
    have hvm : (allocPageTable vm).2 = vm' := by
      rw [vmmCreatePml4] at hrun
      split at hrun
      next hcall => rw [hcall]; exact (Prod.mk.inj hrun).2
      next hcall => rw [hcall]; exact (Prod.mk.inj hrun).2
    rw [hvm] at hledger
    exact .inr ⟨hr, hbare, hforest, hledger⟩

theorem freeLoose (h : Lease p₀ vm roots (x ::ₘ loose)) : Lease p₀ (vm.freePage x) roots loose := by
  refine ⟨h.forest.free_loose, h.ledger.freeAll (l := [x]) fun y hy => ?_⟩
  obtain rfl := mem_singleton.mp hy
  have hpos := Multiset.count_pos.mpr (Multiset.mem_cons_self y loose)
  obtain ⟨hin, hnew, hcount⟩ := h.owned (x := y) (by omega)
  refine ⟨hin, hnew, ?_⟩
  rw [count_singleton_self]
  omega

theorem mapFresh {c : MapCall} (h : Lease p₀ vm roots loose) (hr : r ∈ roots) (hc : c.Proper) :
    Lease p₀ (mapFresh r vm c) roots loose := by
  obtain ⟨hlow, hflags, hclean⟩ := hc
  rw [Mm.mapFresh]
  have hledger1 : Ledger p₀ vm.allocPage.2.pmm := h.ledger.alloc
  rcases halloc : vm.allocPage with ⟨phys, vm1⟩
  rw [halloc] at hledger1
  dsimp only
  rcases allocPage_spec h.forest.ok halloc with ⟨rfl, rfl, -⟩ | ⟨hphys, hmem, ht⟩
  · rw [if_pos rfl]
    exact h
  · rw [if_neg hphys]
    have hforest : Forest (vm1.setPage phys c.contents) roots (phys ::ₘ loose) _ p₀.InUse :=
      (h.forest.take ht fun _ _ => by rw [hmem]).setPage_loose (Multiset.mem_cons_self ..) _
    have hledger :
        Ledger p₀ (vmmMapPage r c.virt phys c.flags (vm1.setPage phys c.contents)).2.pmm :=
      vmmMapPage_pmm (fun _ => Ledger.alloc) r c.virt phys c.flags hledger1
    rcases hrun : vmmMapPage r c.virt phys c.flags (vm1.setPage phys c.contents) with ⟨ok, vm2⟩
    rw [hrun] at hledger
    rcases hforest.mapPage hr hlow hflags hclean hrun with ⟨rfl, hforest2, -⟩ | ⟨rfl, hforest2, -⟩
    · exact freeLoose ⟨hforest2, hledger⟩
    · exact ⟨hforest2, hledger⟩

theorem mapAll {calls : List MapCall} (h : Lease p₀ vm roots loose) (hr : r ∈ roots)
    (hcalls : ∀ c ∈ calls, c.Proper) : Lease p₀ (calls.foldl (Mm.mapFresh r) vm) roots loose := by
  induction calls generalizing vm with
  | nil => exact h
  | cons c calls ih =>
    exact ih (h.mapFresh hr (hcalls c mem_cons_self)) fun c hc =>
      hcalls c (mem_cons_of_mem _ hc)

/-- A copy adds at most one reference to each page of the spaces, so with few spaces no count
meets its bound. -/
theorem copy {child : Addr} (h : Lease p₀ vm (child ::ₘ roots) loose) (hb : Bare vm.mem child)
    (hr : r ∈ roots) (hcard : roots.card < 200) :
    Lease p₀ (vmmCopyUserspace child r vm).2 (child ::ₘ roots) loose := by
  have hcounted := vmmCopyUserspace_pmm (P := Pmm.Counted) (fun _ => counted_alloc)
    (fun _ x hc => counted_incref hc x) child r h.ledger.counted
  rcases hrun : vmmCopyUserspace child r vm with ⟨ok, vm'⟩
  rw [hrun] at hcounted
  obtain ⟨hforest, hcopied⟩ := h.forest.copy hb hr hrun
  obtain ⟨new, hc⟩ := copiesTable_vmmCopyUserspace _ _ _ _ _ (h.forest.ready_copy hb hr) hrun
  have hroot := h.forest.roots_frame r (Multiset.mem_cons_of_mem hr)
  have hlost : (fun x => 0 + (vm.pmm.count x + rootLeaves vm'.mem child x - 255)) = fun _ => 0 := by
    funext x
    have hslim := hforest.slim child (Multiset.mem_cons_self child roots) x
    have hle : vm.pmm.count x ≤ 255 := h.forest.ok.refs_le _
    by_cases hpos : 0 < rootLeaves vm'.mem child x
    · have hleaf := (hcopied.shared x hpos).1
      have hmany := treeLeaves_le_card h.forest.slim x
      rw [Multiset.card_cons] at hmany
      rw [treeLeaves_cons] at hmany
      obtain ⟨-, -, hcount⟩ := h.owned (x := x) (by rw [treeLeaves_cons]; omega)
      have hone := h.forest.accounts.single x
      rw [treeLeaves_cons] at hone hcount
      omega
    · omega
  rw [hlost] at hforest
  refine ⟨hforest, h.ledger.grow hc.grown (fun x hpos => ?_) hcounted⟩
  have hleaf := hc.leaves x
  rw [← rootLeaves_eq hroot] at hleaf
  have hall : rootLeaves vm.mem r x ≤ treeLeaves vm.mem (child ::ₘ roots) x :=
    rootLeaves_le (Multiset.mem_cons_of_mem hr) x
  obtain ⟨hin, hnew, -⟩ := h.owned (x := x) (by omega)
  exact ⟨hin, hnew⟩

theorem freeSpace (h : Lease p₀ vm (r ::ₘ roots) loose) : Lease p₀ (freeSpace r vm) roots loose := by
  obtain ⟨hforest, hbare, -, hpmm⟩ := h.forest.freeUserPages fun _ _ => .inl rfl
  have hr := h.forest.roots_frame r (Multiset.mem_cons_self r roots)
  refine freeLoose ⟨hforest.uproot hbare, ?_⟩
  rw [hpmm]
  refine h.ledger.freeAll fun x hx => ?_
  have hpos := count_pos_iff.mpr hx
  have hle : (framesUnder vm.mem 3 r (indices 3)).count x ≤ loose.count x +
      treeTables vm.mem (r ::ₘ roots) x + treeLeaves vm.mem (r ::ₘ roots) x := by
    rw [count_framesUnder, treeTables_cons, tableCount_root hr, treeLeaves_cons, rootLeaves_eq hr]
    omega
  obtain ⟨hin, hnew, hcount⟩ := h.owned (x := x) (by omega)
  exact ⟨hin, hnew, by omega⟩

/-- When all spaces are gone, the allocator is as it was. -/
theorem finish (h : Lease p₀ vm 0 0) (h0 : p₀.Settled) : p₀.SamePages vm.pmm := by
  have hbase := h.ledger.base
  have haddr (i : ℕ) : vm.pmm.address i = p₀.address i := by rw [Pmm.address, Pmm.address, hbase]
  have hmanaged (i : ℕ) (hi : i < maxPages) : vm.pmm.Managed (p₀.address i) := ⟨i, hi, (haddr i).symm⟩
  have hbit (i : ℕ) (hi : i < maxPages) :
      vm.pmm.used (p₀.address i) = vm.pmm.bitmap i ∧ p₀.used (p₀.address i) = p₀.bitmap i ∧
        vm.pmm.count (p₀.address i) = vm.pmm.pageRefs i ∧ p₀.count (p₀.address i) = p₀.pageRefs i := by
    have hidx : vm.pmm.index (p₀.address i) = i := by rw [← haddr, Pmm.index_address hi]
    have hidx0 : p₀.index (p₀.address i) = i := Pmm.index_address hi
    rw [Pmm.used, Pmm.used, Pmm.count, Pmm.count, hidx, hidx0]
    exact ⟨rfl, rfl, rfl, rfl⟩
  have hnone (x : Addr) : ¬0 < (0 : Multiset Addr).count x + treeTables vm.mem 0 x +
      treeLeaves vm.mem 0 x := by
    simp
  have hsame (i : ℕ) (hi : i < maxPages) : vm.pmm.bitmap i = p₀.bitmap i := by
    obtain ⟨hu, hu0, -, -⟩ := hbit i hi
    rw [← hu, ← hu0, Bool.eq_iff_iff]
    constructor
    · intro hused
      exact ((h.forest.accounts.covered _ (hmanaged i hi) hused).resolve_left (hnone _)).2
    · intro hused
      exact (h.ledger.kept _ ⟨⟨i, hi, rfl⟩, hused⟩).1.2
  refine ⟨hsame, fun i hi => ?_, ?_⟩
  · obtain ⟨hu, hu0, hc, hc0⟩ := hbit i hi
    rw [← hc, ← hc0]
    cases hfree : p₀.bitmap i with
    | true => exact (h.ledger.kept _ ⟨⟨i, hi, rfl⟩, hu0.trans hfree⟩).2
    | false =>
      rw [h.ledger.settled.blank _ (hmanaged i hi) (by rw [hu, hsame i hi, hfree]),
        h0.blank _ ⟨i, hi, rfl⟩ (hu0.trans hfree)]
  · rw [h.ledger.settled.counted, h0.counted, Pmm.clearBits, Pmm.clearBits]
    refine congrArg Finset.card (Finset.filter_congr fun i hi => ?_)
    rw [hsame i (Finset.mem_range.mp hi)]

end Lease

section Life

variable {p₀ : Pmm} {vm : Vm} {r : Addr}

theorem Lease.copyThenFree (h : Lease p₀ vm {r} 0) (parentFirst : Bool) :
    Lease p₀ (copyThenFree parentFirst r vm) 0 0 := by
  rw [Mm.copyThenFree]
  rcases hcreate : vmmCreatePml4 vm with ⟨child, vm1⟩
  dsimp only
  rcases h.createPml4 hcreate with ⟨rfl, rfl⟩ | ⟨hchild, hbare, h1⟩
  · rw [if_pos rfl]
    exact freeSpace h
  · rw [if_neg hchild]
    have h2 : Lease p₀ (vmmCopyUserspace child r vm1).2 (child ::ₘ {r}) 0 :=
      h1.copy hbare (Multiset.mem_singleton_self r) (by rw [Multiset.card_singleton]; decide)
    cases parentFirst with
    | false => exact freeSpace (freeSpace h2)
    | true =>
      rw [← Multiset.cons_zero, Multiset.cons_swap] at h2
      exact freeSpace (freeSpace h2)

/-- Whatever fails in the life of a space, the allocator ends as it was. -/
theorem spaceLife_conserves (calls : List MapCall) (ending : Ending) (h : vm.pmm.Settled)
    (hcalls : ∀ c ∈ calls, c.Proper) : vm.pmm.SamePages (spaceLife calls ending vm).pmm := by
  rw [spaceLife]
  rcases hcreate : vmmCreatePml4 vm with ⟨pml4, vm1⟩
  dsimp only
  rcases (Lease.start h).createPml4 hcreate with ⟨rfl, rfl⟩ | ⟨hpml4, -, h1⟩
  · rw [if_pos rfl]
    exact ⟨fun _ _ => rfl, fun _ _ => rfl, rfl⟩
  · rw [if_neg hpml4]
    have h2 := h1.mapAll (Multiset.mem_cons_self pml4 0) hcalls
    cases ending with
    | freed => exact (Lease.freeSpace h2).finish h
    | copied parentFirst => exact (h2.copyThenFree parentFirst).finish h

/-- Two pages are mapped and the space is copied, in a machine with all its memory free. -/
theorem spaceLife_conserves_two_pages :
    emptyVm.pmm.SamePages (spaceLife [⟨0x1000, pagePresent, fun _ => 7⟩,
      ⟨0x200000, pagePresent, fun _ => 9⟩] (.copied true) emptyVm).pmm := by
  refine spaceLife_conserves _ _ ⟨forest_emptyVm.ok, ?_, fun _ _ _ => rfl⟩ ?_
  · have hall : ∀ i ∈ Finset.range maxPages, emptyVm.pmm.bitmap i = false := fun _ _ => rfl
    rw [clearBits, Finset.filter_true_of_mem hall, Finset.card_range]
    rfl
  · intro c hc
    simp only [mem_cons, not_mem_nil, or_false] at hc
    rcases hc with rfl | rfl
    · exact ⟨by decide, by decide, by decide⟩
    · exact ⟨by decide, by decide, by decide⟩

end Life

end Crius.Mm
