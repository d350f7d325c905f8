import Crius.Mm.MapPage

/-!
# Building an address space beside others

While `do_exec` and `init_task_stack` build an address space, the spaces that exist must not
change. `Kept` compares two states on everything that belongs to these spaces or is reserved,
and `Building` is the state in between: the new space `r`, of which no page is mapped
elsewhere, and the pages `loose` that are to become a part of it. What the heap does with its
own pages is `HeapMoves`.
-/
namespace Crius.Mm

open Lib Multiset Pmm

variable {vm₀ vm vm' : Vm} {roots loose : Multiset Addr} {lost : Addr → ℕ}
  {reserved heap heap' held : Addr → Prop} {r x phys virt : Addr} {flags : Word} {ok : Bool}

/-! ## Pages that stay -/

/-- A page of the spaces, or one that is reserved. -/
def Guarded (vm : Vm) (roots : Multiset Addr) (reserved : Addr → Prop) (x : Addr) : Prop :=
  0 < treeTables vm.mem roots x + treeLeaves vm.mem roots x ∨ reserved x

/-- The spaces have their pages, and their entries point where they did. -/
structure Kept (vm₀ : Vm) (roots : Multiset Addr) (reserved : Addr → Prop) (vm : Vm) : Prop where
  tables : ∀ x, 0 < treeTables vm₀.mem roots x → ∀ j, Cowed (vm₀.mem x j) (vm.mem x j)
  pages : ∀ x, 0 < treeLeaves vm₀.mem roots x ∨ reserved x → vm.mem x = vm₀.mem x
  upper : ∀ r ∈ roots, ∀ j : Fin 512, 256 ≤ j.val → vm.mem r j = vm₀.mem r j

namespace Kept

theorem refl (vm : Vm) (roots : Multiset Addr) (reserved : Addr → Prop) :
    Kept vm roots reserved vm :=
  ⟨fun _ _ _ => .inl rfl, fun _ _ => rfl, fun _ _ _ _ => rfl⟩

section

variable (h : Kept vm₀ roots reserved vm)

include h

theorem treeTables_eq : treeTables vm.mem roots = treeTables vm₀.mem roots :=
  (trees_edit vm.mem h.tables).1

theorem treeLeaves_eq : treeLeaves vm.mem roots = treeLeaves vm₀.mem roots :=
  (trees_edit vm.mem h.tables).2.1

theorem trans (h' : Kept vm roots reserved vm') : Kept vm₀ roots reserved vm' := by
  constructor
  · intro x hx j
    exact (h.tables x hx j).trans (h'.tables x (by rwa [h.treeTables_eq]) j)
  · intro x hx
    rw [h'.pages x (by rwa [h.treeLeaves_eq]), h.pages x hx]
  · intro r hr j hj
    rw [h'.upper r hr j hj, h.upper r hr j hj]

end

/-- Guarded pages did not change at all. -/
theorem of_eq (hframe : ∀ r ∈ roots, IsFrame r)
    (h : ∀ x, Guarded vm roots reserved x → vm'.mem x = vm.mem x) : Kept vm roots reserved vm' := by
  constructor
  · intro x hx j
    rw [h x (.inl (by omega))]
    exact .inl rfl
  · intro x hx
    apply h x
    rcases hx with hx | hx
    · exact .inl (by omega)
    · exact .inr hx
  · intro r hr j _
    have hpos : 0 < treeTables vm.mem roots r := treeTables_pos hr (below_root (hframe r hr))
    rw [h r (.inl (by omega))]

end Kept

section Guarded

variable {rest : Multiset Addr}

theorem Forest.guarded_inUse (h : Forest vm roots loose lost fun x => heap x ∨ reserved x)
    (hx : Guarded vm roots reserved x) : vm.pmm.InUse x := by
  rcases hx with hx | hx
  · obtain ⟨hm, hu, -⟩ := h.accounts.owned x (by omega)
    exact ⟨hm, hu⟩
  · obtain ⟨hm, hu, -⟩ := h.accounts.apart x (.inr hx)
    exact ⟨hm, hu⟩

theorem Forest.guarded_not_loose (h : Forest vm roots loose lost fun x => heap x ∨ reserved x)
    (hx : x ∈ loose) : ¬ Guarded vm roots reserved x := by
  have hone := h.loose_one hx
  rintro (hg | hg)
  · omega
  · have hzero := (h.accounts.apart x (.inr hg)).2.2
    omega

theorem Guarded.cons (hx : Guarded vm roots reserved x) : Guarded vm (r ::ₘ roots) reserved x := by
  rcases hx with hx | hx
  · left
    rw [treeTables_cons, treeLeaves_cons]
    omega
  · exact .inr hx

theorem treeTables_single_add (mem : Addr → Page) (r : Addr) (roots : Multiset Addr) (x : Addr) :
    treeTables mem (r ::ₘ roots) x = treeTables mem {r} x + treeTables mem roots x := by
  rw [treeTables_cons, treeTables_singleton]

/-- A table of the new space belongs to no other. -/
theorem Forest.guarded_not_table
    (h : Forest vm (r ::ₘ roots) loose lost fun x => heap x ∨ reserved x)
    (hx : Guarded vm roots reserved x) : treeTables vm.mem {r} x = 0 := by
  by_contra htable
  have hsum := treeTables_single_add vm.mem r roots x
  have hone := h.table_one (x := x) (by omega)
  rcases hx with hx | hx
  · have hleaves : treeLeaves vm.mem (r ::ₘ roots) x = _ := treeLeaves_cons
    omega
  · have hzero := (h.accounts.apart x (.inr hx)).2.2
    omega

end Guarded

/-! ## The heap -/

/-- The heap takes pages from the page allocator, gives back pages of which it holds the
only reference, and writes to its pages. -/
inductive HeapMoves (vm : Vm) (heap : Addr → Prop) : Vm → (Addr → Prop) → Prop
  | refl : HeapMoves vm heap vm heap
  | take {vm₁ vm₂ : Vm} {heap₁ : Addr → Prop} {x : Addr} : HeapMoves vm heap vm₁ heap₁ →
      vm₁.pmm.Taken x vm₂.pmm → vm₂.mem = vm₁.mem →
      HeapMoves vm heap vm₂ fun y => y = x ∨ heap₁ y
  | give {vm₁ : Vm} {heap₁ : Addr → Prop} {x : Addr} : HeapMoves vm heap vm₁ heap₁ → heap₁ x →
      vm₁.pmm.count x = 1 → HeapMoves vm heap (vm₁.freePage x) fun y => y ≠ x ∧ heap₁ y
  | write {vm₁ : Vm} {heap₁ : Addr → Prop} {x : Addr} (page : Page) :
      HeapMoves vm heap vm₁ heap₁ → heap₁ x → HeapMoves vm heap (vm₁.setPage x page) heap₁

theorem Accounts.hold {p p' : Pmm} {sole shared : Addr → ℕ} (h : Accounts p sole shared lost held)
    (ht : p.Taken x p') : Accounts p' sole shared lost fun y => y = x ∨ held y := by
  have hnone : sole x + shared x = 0 := by
    by_contra hpos
    have hused := (h.owned x (by omega)).2.1
    rw [ht.free] at hused
    cases hused
  have hm (y : Addr) : p'.Managed y ↔ p.Managed y := managed_congr ht.base y
  constructor
  · exact ht.ok
  · intro y hy
    obtain ⟨hym, hyu, hpos, hsum⟩ := h.owned y hy
    have hne : y ≠ x := ht.ne ⟨hym, hyu⟩
    rw [hm, ht.count y hym hne]
    exact ⟨hym, (ht.used y hym).mpr (.inl hyu), hpos, hsum⟩
  · exact h.single
  · exact h.settled
  · intro y hy hu
    rw [hm] at hy
    rcases (ht.used y hy).mp hu with hu | rfl
    · rcases h.covered y hy hu with hin | hin
      · exact .inl hin
      · exact .inr (.inr hin)
    · exact .inr (.inl rfl)
  · intro y hy
    rw [hm]
    rcases hy with rfl | hy
    · exact ⟨ht.managed, (ht.used y ht.managed).mpr (.inr rfl), hnone⟩
    · obtain ⟨hym, hyu, hzero⟩ := h.apart y hy
      exact ⟨hym, (ht.used y hym).mpr (.inl hyu), hzero⟩

theorem Accounts.unhold {p : Pmm} {sole shared : Addr → ℕ} (h : Accounts p sole shared lost held)
    (hx : held x) (hone : p.count x = 1) :
    Accounts (pmmFreePage p x) sole shared lost fun y => y ≠ x ∧ held y := by
  obtain ⟨hxm, hxu, hxzero⟩ := h.apart x hx
  obtain ⟨ok', hbase, hused, hcount⟩ := pmmFreePage_spec h.ok hxm hxu
  have hm (y : Addr) : (pmmFreePage p x).Managed y ↔ p.Managed y := managed_congr hbase y
  have hother (y : Addr) (hy : p.Managed y) (hne : y ≠ x) :
      (pmmFreePage p x).used y = p.used y ∧ (pmmFreePage p x).count y = p.count y := by
    rw [hused y hy, hcount y hy, if_neg hne, if_neg hne]
    exact ⟨rfl, rfl⟩
  constructor
  · exact ok'
  · intro y hy
    obtain ⟨hym, hyu, hpos, hsum⟩ := h.owned y hy
    have hne : y ≠ x := by
      rintro rfl
      omega
    rw [hm, (hother y hym hne).1, (hother y hym hne).2]
    exact ⟨hym, hyu, hpos, hsum⟩
  · exact h.single
  · exact h.settled
  · intro y hy hu
    rw [hm] at hy
    have hne : y ≠ x := by
      rintro rfl
      rw [hused y hy, if_pos rfl, hone] at hu
      simp at hu
    rw [(hother y hy hne).1] at hu
    rcases h.covered y hy hu with hin | hin
    · exact .inl hin
    · exact .inr ⟨hne, hin⟩
  · rintro y ⟨hne, hy⟩
    obtain ⟨hym, hyu, hzero⟩ := h.apart y hy
    rw [hm, (hother y hym hne).1]
    exact ⟨hym, hyu, hzero⟩

/-- The accounts when the heap has moved: its pages are held, and every other page that was
in use is as before. -/
theorem Forest.heapMoves (h : Forest vm roots loose lost fun x => heap x ∨ reserved x)
    (hdisj : ∀ x, heap x → ¬ reserved x) (hmoves : HeapMoves vm heap vm' heap') :
    Forest vm' roots loose lost (fun x => heap' x ∨ reserved x) ∧
      (∀ x, heap' x → ¬ reserved x) ∧
      ∀ x, vm.pmm.InUse x → ¬ heap x →
        vm'.pmm.InUse x ∧ ¬ heap' x ∧ vm'.mem x = vm.mem x := by
  induction hmoves with
  | refl => exact ⟨h, hdisj, fun x hx hheap => ⟨hx, hheap, rfl⟩⟩
  | @take vm1 vm2 heap1 x hprev ht hmem ih =>
    obtain ⟨h1, hdisj1, hframe⟩ := ih
    have hset : (fun y => (y = x ∨ heap1 y) ∨ reserved y) = fun y => y = x ∨ heap1 y ∨ reserved y :=
      funext fun y => propext or_assoc
    refine ⟨⟨?_, h1.roots_frame, ?_⟩, ?_, fun y hy hheap => ?_⟩
    · rw [hset, hmem]
      exact h1.accounts.hold ht
    · rw [hmem]
      exact h1.slim
    · rintro y (rfl | hy) hres
      · obtain ⟨hm, hu, -⟩ := h1.accounts.apart y (.inr hres)
        exact ht.ne ⟨hm, hu⟩ rfl
      · exact hdisj1 y hy hres
    · obtain ⟨hused, hnot, hsame⟩ := hframe y hy hheap
      have hne : y ≠ x := ht.ne hused
      refine ⟨(Grown.take ht).inUse hused, ?_, by rw [hmem, hsame]⟩
      rintro (heq | hin)
      · exact hne heq
      · exact hnot hin
  | @give vm1 heap1 x hprev hx hone ih =>
    obtain ⟨h1, hdisj1, hframe⟩ := ih
    have hset : (fun y => (y ≠ x ∧ heap1 y) ∨ reserved y) =
        fun y => y ≠ x ∧ (heap1 y ∨ reserved y) := by
      funext y
      apply propext
      constructor
      · rintro (⟨hne, hy⟩ | hy)
        · exact ⟨hne, .inl hy⟩
        · exact ⟨fun heq => hdisj1 x hx (heq ▸ hy), .inr hy⟩
      · rintro ⟨hne, hy | hy⟩
        · exact .inl ⟨hne, hy⟩
        · exact .inr hy
    obtain ⟨hxm, hxu, -⟩ := h1.accounts.apart x (.inl hx)
    obtain ⟨-, hbase, hused, -⟩ := pmmFreePage_spec h1.ok hxm hxu
    refine ⟨⟨?_, h1.roots_frame, h1.slim⟩, fun y hy => hdisj1 y hy.2, fun y hy hheap => ?_⟩
    · rw [hset]
      exact h1.accounts.unhold (.inl hx) hone
    · obtain ⟨huse, hnot, hsame⟩ := hframe y hy hheap
      have hne : y ≠ x := by
        rintro rfl
        exact hnot hx
      refine ⟨⟨(managed_congr hbase y).mpr huse.1, ?_⟩, fun hin => hnot hin.2, hsame⟩
      rw [Vm.freePage_pmm, hused y huse.1, if_neg hne]
      exact huse.2
  | @write vm1 heap1 x page hprev hx ih =>
    obtain ⟨h1, hdisj1, hframe⟩ := ih
    refine ⟨h1.mem_congr rfl fun y hy => vm1.setPage_mem_of_ne ?_ page, hdisj1,
      fun y hy hheap => ?_⟩
    · rintro rfl
      have hzero := (h1.accounts.apart y (.inl hx)).2.2
      omega
    · obtain ⟨hused, hnot, hsame⟩ := hframe y hy hheap
      refine ⟨hused, hnot, ?_⟩
      rw [vm1.setPage_mem_of_ne (by rintro rfl; exact hnot hx), hsame]

/-! ## A space under construction -/

/-- A space `r` beside the spaces `roots`, the pages of which are kept. -/
structure Beside (vm₀ : Vm) (roots : Multiset Addr) (reserved heap : Addr → Prop) (r : Addr)
    (loose : Multiset Addr) (vm : Vm) : Prop where
  forest : Forest vm (r ::ₘ roots) loose (fun _ => 0) fun x => heap x ∨ reserved x
  apart : ∀ x, heap x → ¬ reserved x
  kept : Kept vm₀ roots reserved vm

/-- The space shares no page with the others. -/
structure Building (vm₀ : Vm) (roots : Multiset Addr) (reserved heap : Addr → Prop) (r : Addr)
    (loose : Multiset Addr) (vm : Vm) : Prop extends Beside vm₀ roots reserved heap r loose vm where
  own : ∀ x, 0 < rootLeaves vm.mem r x → treeLeaves vm.mem roots x = 0

theorem Beside.frames (h : Beside vm₀ roots reserved heap r loose vm) :
    ∀ root ∈ roots, IsFrame root :=
  fun root hroot => h.forest.roots_frame root (mem_cons_of_mem hroot)

/-- The space is given up. -/
theorem Beside.discard (h : Beside vm₀ roots reserved heap r loose vm) :
    Forest ((vmmFreeUserPages r vm).freePage r) roots loose (fun _ => 0)
        (fun x => heap x ∨ reserved x) ∧
      Kept vm₀ roots reserved ((vmmFreeUserPages r vm).freePage r) := by
  obtain ⟨hforest, hbare, hmem, -⟩ := h.forest.freeUserPages fun x _ => .inl rfl
  refine ⟨(hforest.uproot hbare).free_loose, h.kept.trans (Kept.of_eq h.frames fun x hx => ?_)⟩
  rw [Vm.freePage_mem]
  apply hmem
  rintro rfl
  have hpos : 0 < treeTables vm.mem {x} x := treeTables_pos (mem_singleton_self x)
    (below_root (h.forest.roots_frame x (mem_cons_self x roots)))
  have hzero := h.forest.guarded_not_table hx
  omega

namespace Building

theorem root_mem (r : Addr) (roots : Multiset Addr) : r ∈ r ::ₘ roots :=
  mem_cons_self r roots

theorem not_table (h : Building vm₀ roots reserved heap r loose vm)
    (hx : Guarded vm roots reserved x) : treeTables vm.mem {r} x = 0 :=
  h.forest.guarded_not_table hx

/-- A change of the new space and of free pages. -/
theorem extend {loose' : Multiset Addr} (h : Building vm₀ roots reserved heap r loose vm)
    (hforest : Forest vm' (r ::ₘ roots) loose' (fun _ => 0) fun x => heap x ∨ reserved x)
    (hframe : ∀ x, vm.pmm.InUse x → treeTables vm.mem {r} x = 0 → ¬ 0 < rootLeaves vm.mem r x →
      x ∉ loose → vm'.mem x = vm.mem x)
    (hleaves : ∀ x, 0 < rootLeaves vm'.mem r x → x ∈ loose ∨ 0 < rootLeaves vm.mem r x) :
    Building vm₀ roots reserved heap r loose' vm' := by
  have hsame (x : Addr) (hx : Guarded vm roots reserved x) : vm'.mem x = vm.mem x := by
    have hx' : Guarded vm (r ::ₘ roots) reserved x := hx.cons
    apply hframe x (h.forest.guarded_inUse hx') (h.not_table hx)
    · intro hleaf
      rcases hx with hx | hx
      · have hsum : treeLeaves vm.mem (r ::ₘ roots) x = _ := treeLeaves_cons
        have hsingle := h.forest.accounts.single x
        have htables := treeTables_single_add vm.mem r roots x
        have hnone := h.own x hleaf
        omega
      · have hzero := (h.forest.accounts.apart x (.inr hx)).2.2
        have hsum : treeLeaves vm.mem (r ::ₘ roots) x = _ := treeLeaves_cons
        omega
    · intro hloose
      exact h.forest.guarded_not_loose hloose hx'
  have hkept : Kept vm roots reserved vm' := Kept.of_eq h.frames hsame
  refine ⟨⟨hforest, h.apart, h.kept.trans hkept⟩, fun x hx => ?_⟩
  rw [hkept.treeLeaves_eq]
  rcases hleaves x hx with hloose | hleaf
  · have hone := h.forest.loose_one hloose
    have hsum : treeLeaves vm.mem (r ::ₘ roots) x = _ := treeLeaves_cons
    omega
  · exact h.own x hleaf

/-- The comparison starts at an earlier state. -/
theorem rebase {vm1 : Vm} (h : Building vm1 roots reserved heap r loose vm)
    (hkept : Kept vm₀ roots reserved vm1) : Building vm₀ roots reserved heap r loose vm :=
  ⟨⟨h.forest, h.apart, hkept.trans h.kept⟩, h.own⟩

section

variable (h : Building vm₀ roots reserved heap r loose vm)

include h

theorem heapMoves (hmoves : HeapMoves vm heap vm' heap') :
    Building vm₀ roots reserved heap' r loose vm' := by
  obtain ⟨hforest, hapart, hframe⟩ := h.forest.heapMoves h.apart hmoves
  have hnot (x : Addr) (hx : 0 < treeTables vm.mem (r ::ₘ roots) x +
      treeLeaves vm.mem (r ::ₘ roots) x) : ¬ heap x := by
    intro hheap
    have hzero := (h.forest.accounts.apart x (.inl hheap)).2.2
    omega
  have hsame (x : Addr) (hx : Guarded vm (r ::ₘ roots) reserved x) : vm'.mem x = vm.mem x := by
    refine (hframe x (h.forest.guarded_inUse hx) ?_).2.2
    rcases hx with hx | hx
    · exact hnot x hx
    · exact fun hheap => h.apart x hheap hx
  have hkept : Kept vm (r ::ₘ roots) reserved vm' := Kept.of_eq h.forest.roots_frame hsame
  have hkept' : Kept vm roots reserved vm' := Kept.of_eq h.frames fun x hx => hsame x hx.cons
  have hroot := (trees_edit vm'.mem hkept.tables).2.2.1 r (root_mem r roots)
  refine ⟨⟨hforest, hapart, h.kept.trans hkept'⟩, fun x hx => ?_⟩
  rw [hkept'.treeLeaves_eq]
  rw [hroot] at hx
  exact h.own x hx

theorem alloc (hrun : vm.allocPage = (x, vm')) :
    (x = 0 ∧ vm' = vm) ∨ x ≠ 0 ∧ Building vm₀ roots reserved heap r (x ::ₘ loose) vm' := by
  rcases allocPage_spec h.forest.ok hrun with ⟨hx, hsame, -⟩ | ⟨hx, hmem, ht⟩
  · exact .inl ⟨hx, hsame⟩
  · refine .inr ⟨hx, h.extend (h.forest.take ht fun y _ => by rw [hmem]) ?_ ?_⟩
    · intro y _ _ _ _
      rw [hmem]
    · intro y hy
      rw [hmem] at hy
      exact .inr hy

/-- A page that is held or mapped by the new space is written. -/
theorem setPage (hnot : treeTables vm.mem (r ::ₘ roots) x = 0)
    (hx : x ∈ loose ∨ 0 < rootLeaves vm.mem r x) (page : Page) :
    Building vm₀ roots reserved heap r loose (vm.setPage x page) := by
  have htables (y : Addr) (hy : 0 < treeTables vm.mem (r ::ₘ roots) y) :
      (vm.setPage x page).mem y = vm.mem y := by
    apply vm.setPage_mem_of_ne
    rintro rfl
    omega
  refine h.extend (h.forest.mem_congr rfl htables) ?_ ?_
  · intro y _ _ hleaf hloose
    apply vm.setPage_mem_of_ne
    rintro rfl
    exact hx.elim hloose hleaf
  · intro y hy
    rw [(trees_congr htables).2.2 r (root_mem r roots)] at hy
    exact .inr hy

theorem setLoose (hx : x ∈ loose) (page : Page) :
    Building vm₀ roots reserved heap r loose (vm.setPage x page) := by
  have hone := h.forest.loose_one hx
  exact h.setPage (by omega) (.inl hx) page

end

theorem map (h : Building vm₀ roots reserved heap r (phys ::ₘ loose) vm)
    (hlow : (tableIndex virt 39).val < 256) (hflags : present flags = true)
    (hclean : leafAddr flags = 0) (hrun : vmmMapPage r virt phys flags vm = (ok, vm')) :
    ok = false ∧ Building vm₀ roots reserved heap r (phys ::ₘ loose) vm' ∨
      ok = true ∧ Building vm₀ roots reserved heap r loose vm' := by
  rcases h.forest.mapPage (root_mem r roots) hlow hflags hclean hrun with
    ⟨hok, hforest, hext⟩ | ⟨hok, hforest, -, -, -, hleaves, hpages⟩
  · refine .inl ⟨hok, h.extend hforest ?_ ?_⟩
    · intro y hy hzero _ _
      exact (hext.pages y hy.notFree hzero).2
    · intro y hy
      rw [hext.leaves r (root_mem r roots)] at hy
      exact .inr hy
  · refine .inr ⟨hok, h.extend hforest ?_ ?_⟩
    · intro y hy hzero _ _
      exact ((hpages y hy.notFree).2 hzero).2
    · intro y hy
      rcases hleaves y hy with rfl | hy
      · exact .inl (mem_cons_self y loose)
      · exact .inr hy

theorem free (h : Building vm₀ roots reserved heap r (x ::ₘ loose) vm) :
    Building vm₀ roots reserved heap r loose (vm.freePage x) := by
  refine h.extend h.forest.free_loose ?_ ?_
  · intro y _ _ _ _
    rfl
  · intro y hy
    exact .inr hy

/-- A page of the new space is written. -/
theorem setLeaf (h : Building vm₀ roots reserved heap r loose vm)
    (hx : 0 < rootLeaves vm.mem r x) (page : Page) :
    Building vm₀ roots reserved heap r loose (vm.setPage x page) := by
  have hnot : treeTables vm.mem (r ::ₘ roots) x = 0 := by
    have hle : rootLeaves vm.mem r x ≤ treeLeaves vm.mem (r ::ₘ roots) x :=
      rootLeaves_le (root_mem r roots) x
    have hsingle := h.forest.accounts.single x
    omega
  exact h.setPage hnot (.inr hx) page

/-- A leaf entry of the new space is rewritten and maps the same page. -/
theorem rewrite {pt : Addr} {w : Word} (h : Building vm₀ roots reserved heap r loose vm)
    (hlow : (tableIndex virt 39).val < 256) (hpt : findPt vm r virt = some pt)
    (he : present (vm.mem pt (tableIndex virt 12)) = true) (hw : present w = true)
    (hsame : leafAddr w = leafAddr (vm.mem pt (tableIndex virt 12))) :
    Building vm₀ roots reserved heap r loose (vm.write pt (tableIndex virt 12) w) := by
  have hself := root_mem r roots
  rw [findPt_eq_locate (h.forest.roots_frame r hself) hlow] at hpt
  obtain ⟨-, -, hleaves⟩ := h.forest.counts_write hself hpt rfl rfl he hw
  refine h.extend (h.forest.rewrite_leaf hself hpt rfl rfl he hw hsame) ?_ ?_
  · intro y _ hzero _ _
    apply vm.write_mem_of_ne
    rintro rfl
    have hpos : 0 < treeTables vm.mem {r} y := treeTables_pos (mem_singleton_self r)
      (Radix.below_of_locate (k := 0) hpt rfl)
    omega
  · intro y hy
    have hcount := hleaves r hself y
    rw [hsame] at hcount
    exact .inr (by omega)

/-- A new PML4 with the kernel's half. -/
theorem start {vm1 : Vm} {active : Addr}
    (h : Forest vm roots 0 (fun _ => 0) fun x => heap x ∨ reserved x)
    (hapart : ∀ x, heap x → ¬ reserved x) (hrun : vmmCreatePml4 vm = (r, vm1)) :
    r = 0 ∧ vm1 = vm ∨
      r ≠ 0 ∧ Building vm roots reserved heap r 0 (vmmMapKernel active r vm1) ∧
        Bare (vmmMapKernel active r vm1).mem r := by
  unfold vmmCreatePml4 at hrun
  rcases halloc : allocPageTable vm with ⟨t, vm2⟩
  rw [halloc] at hrun
  rcases h.allocPageTable halloc with ⟨rfl, rfl, -⟩ | ⟨t, rfl, ht, hmem, h1⟩
  · cases hrun
    exact .inl ⟨rfl, rfl⟩
  · obtain ⟨rfl, rfl⟩ := Prod.mk.inj hrun
    obtain ⟨hpmm, hothers, hlower⟩ := vmmMapKernel_spec active t vm2
    generalize vmmMapKernel active t vm2 = vm3 at *
    have hbare : Bare vm3.mem t := by
      intro i hi
      rw [hlower i hi, hmem, Function.update_self]
      rfl
    have hforest : Forest vm3 (t ::ₘ roots) 0 (fun _ => 0) fun x => heap x ∨ reserved x := by
      refine (h1.mem_congr hpmm fun x hx => hothers x ?_).plant hbare
      rintro rfl
      have := h1.loose_one (mem_cons_self x 0)
      omega
    refine .inr ⟨ht.managed.ne_zero h.ok,
      ⟨⟨hforest, hapart, Kept.of_eq h.roots_frame fun x hx => ?_⟩, fun x hx => ?_⟩, hbare⟩
    · have hne : x ≠ t := ht.ne (h.guarded_inUse hx)
      rw [hothers x hne, hmem, Function.update_of_ne hne]
    · rw [rootLeaves_bare (hforest.roots_frame t (root_mem t roots)) hbare] at hx
      omega

/-- The space becomes a copy of another one; no count may be full. -/
theorem copy {root : Addr} (h : Building vm₀ roots reserved heap r 0 vm) (hb : Bare vm.mem r)
    (hroot : root ∈ roots) (hcount : ∀ x, treeLeaves vm.mem roots x < 255)
    (hrun : vmmCopyUserspace r root vm = (ok, vm')) : Beside vm₀ roots reserved heap r 0 vm' := by
  obtain ⟨hforest, hc⟩ := h.forest.copy hb hroot hrun
  have hframe := h.forest.roots_frame r (root_mem r roots)
  have hlost : (fun x => 0 + (vm.pmm.count x + rootLeaves vm'.mem r x - 255)) = fun _ => 0 := by
    funext x
    have hle : vm.pmm.count x ≤ 255 := h.forest.ok.refs_le _
    have hslim := hforest.slim r (root_mem r roots) x
    by_cases hleaf : 0 < rootLeaves vm'.mem r x
    · have hshared := (hc.shared x hleaf).1
      have hsum : treeLeaves vm.mem (r ::ₘ roots) x = _ := treeLeaves_bare hframe hb
      obtain ⟨-, -, -, hexact⟩ := h.forest.accounts.owned x (by omega)
      have hsingle := h.forest.accounts.single x
      have hlt := hcount x
      omega
    · omega
  rw [hlost] at hforest
  have hupper (root' : Addr) (hr' : root' ∈ roots) (j : Fin 512) (hj : 256 ≤ j.val) :
      vm'.mem root' j = vm.mem root' j := hc.upper root' (mem_cons_of_mem hr') j hj
  refine ⟨hforest, h.apart, h.kept.trans ⟨hc.tables, fun x hx => ?_, hupper⟩⟩
  have hguard : Guarded vm roots reserved x := by
    rcases hx with hx | hx
    · exact .inl (by omega)
    · exact .inr hx
  apply hc.pages x (h.forest.guarded_inUse hguard.cons)
  have hone := h.forest.accounts.single x
  rcases hx with hx | hx
  · have hsum : treeLeaves vm.mem (r ::ₘ roots) x = _ := treeLeaves_cons
    omega
  · have hzero := (h.forest.accounts.apart x (.inr hx)).2.2
    omega

end Building

end Crius.Mm
