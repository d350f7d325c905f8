import Crius.Mm.Space

/-!
# Mapping pages and forking spaces

`vmm_map_page` adds the tables that are missing on the path and then one leaf. `forkSpace` is
what `task_fork` does with page tables: a new PML4 with the kernel's half, a copy of the user
pages, and if that fails, the release of what has been copied.
-/
namespace Crius.Mm

open Lib Function Multiset Radix Vm

variable {vm vm' : Vm} {roots loose : Multiset Addr} {lost : Addr → ℕ} {held : Addr → Prop}
  {r x phys virt : Addr} {flags : Word} {ok : Bool}

/-! ## Mapping -/

/-- Tables may have been added to the space `r`; entries and all other pages are as before. -/
structure Extends (r : Addr) (roots : Multiset Addr) (vm vm' : Vm) : Prop where
  spaces : ∀ r' ∈ roots, ∀ q, leafAt vm'.mem r' q = leafAt vm.mem r' q
  leaves : ∀ r' ∈ roots, ∀ x, rootLeaves vm'.mem r' x = rootLeaves vm.mem r' x
  notFree : ∀ x, vm.pmm.NotFree x → vm'.pmm.NotFree x
  pages : ∀ x, vm.pmm.NotFree x → treeTables vm.mem {r} x = 0 →
    treeTables vm'.mem {r} x = 0 ∧ vm'.mem x = vm.mem x

theorem Extends.refl (r : Addr) (roots : Multiset Addr) (vm : Vm) : Extends r roots vm vm :=
  ⟨fun _ _ _ => rfl, fun _ _ _ => rfl, fun _ hx => hx, fun _ _ hx => ⟨hx, rfl⟩⟩

theorem Extends.trans {vm1 : Vm} (h : Extends r roots vm vm1) (h' : Extends r roots vm1 vm') :
    Extends r roots vm vm' := by
  refine ⟨fun r' hr q => (h'.spaces r' hr q).trans (h.spaces r' hr q),
    fun r' hr x => (h'.leaves r' hr x).trans (h.leaves r' hr x),
    fun x hx => h'.notFree x (h.notFree x hx), fun x hx hzero => ?_⟩
  obtain ⟨hzero1, hmem1⟩ := h.pages x hx hzero
  obtain ⟨hzero2, hmem2⟩ := h'.pages x (h.notFree x hx) hzero1
  exact ⟨hzero2, hmem2.trans hmem1⟩

/-- The tables of one space among those of all. -/
theorem treeTables_single_le {mem : Addr → Page} (hr : r ∈ roots) (x : Addr) :
    treeTables mem {r} x ≤ treeTables mem roots x := by
  obtain ⟨rest, rfl⟩ := exists_cons_of_mem hr
  rw [treeTables_singleton, treeTables_cons]
  exact Nat.le_add_right _ _

section Table

variable {p : List (Fin 512)} {table : Addr} {i : Fin 512} {k : ℕ} {res : Option Addr}

/-- A held page without live words becomes a table of a space. -/
theorem Forest.link {t : Addr} {w : Word} (h : Forest vm roots (t ::ₘ loose) lost held)
    (hr : r ∈ roots) (hl : locate shape vm.mem 4 (rootWord r) p = some table)
    (hd : p.length + (k + 1) + 1 = 4) (hi : i ∈ shape.seen (k + 1))
    (hdead : present (vm.mem table i) = false) (hw : present w = true) (hpoint : tableAddr w = t)
    (hblank : ∀ j, present (vm.mem t j) = false) :
    Forest (vm.write table i w) roots loose lost held ∧
      locate shape (vm.write table i w).mem 4 (rootWord r) (p ++ [i]) = some t ∧
      (∀ x, treeTables (vm.write table i w).mem {r} x =
        treeTables vm.mem {r} x + if t = x then 1 else 0) ∧
      (∀ r' ∈ roots, ∀ x, rootLeaves (vm.write table i w).mem r' x = rootLeaves vm.mem r' x) ∧
      ∀ r' ∈ roots, ∀ q, leafAt (vm.write table i w).mem r' q = leafAt vm.mem r' q := by
  have hone := h.table_one (treeTables_pos hr (below_of_locate hl hd))
  have hne : t ≠ table := by
    intro heq
    have := h.loose_one (mem_cons_self t loose)
    rw [heq] at this
    omega
  obtain ⟨rest, rfl⟩ := exists_cons_of_mem hr
  have hin := tableCount_pos.mpr ⟨k + 1, below_of_locate hl hd⟩
  rw [treeTables_cons] at hone
  obtain ⟨htables, hleaves, hfind, hlocate⟩ := graft hl hd hi (by omega) hdead hw
    (fun heq => hne (hpoint.symm.trans heq)) (fun j _ => by
      rw [shape_table, hpoint]
      exact hblank j) (vm.write_mem table i w)
  rw [shape_table, hpoint] at htables hlocate
  -- the other spaces do not have the table
  have hothers (x : Addr) (hx : 0 < treeTables vm.mem rest x) :
      (vm.write table i w).mem x = vm.mem x := by
    apply vm.write_mem_of_ne
    intro heq
    rw [heq] at hx
    omega
  obtain ⟨hrestTables, hrestLeaves, hrestRoots⟩ := trees_congr hothers
  have hself (r' : Addr) (hr' : r' ∈ r ::ₘ rest) (x : Addr) :
      rootLeaves (vm.write table i w).mem r' x = rootLeaves vm.mem r' x := by
    rcases mem_cons.mp hr' with rfl | hr'
    · exact hleaves x
    · rw [hrestRoots r' hr']
  refine ⟨⟨h.accounts.congr (fun x => ?_) fun x => ?_, h.roots_frame, fun r' hr' x => ?_⟩, hlocate,
    fun x => ?_, hself, fun r' hr' q => ?_⟩
  · rw [count_cons, treeTables_cons, treeTables_cons, htables, hrestTables]
    simp only [eq_comm (a := x)]
    omega
  · rw [treeLeaves_cons, treeLeaves_cons, hrestLeaves, hself r hr]
  · rw [hself r' hr']
    exact h.slim r' hr' x
  · rw [treeTables_singleton, treeTables_singleton, htables]
  · rcases mem_cons.mp hr' with rfl | hr'
    · exact hfind q
    · refine leafAt_congr (fun x hx => ?_) q
      obtain ⟨d, hb⟩ := tableCount_pos.mp hx
      exact hothers x (treeTables_pos hr' hb)

/-- One level of the walk of `vmm_map_page`. -/
theorem Forest.nextTable (h : Forest vm roots loose lost held) (hr : r ∈ roots)
    (hl : locate shape vm.mem 4 (rootWord r) p = some table)
    (hd : p.length + (k + 1) + 1 = 4) (hi : i ∈ shape.seen (k + 1))
    (hrun : nextTable table i flags vm = (res, vm')) :
    Forest vm' roots loose lost held ∧
      (∀ next, res = some next → locate shape vm'.mem 4 (rootWord r) (p ++ [i]) = some next) ∧
      Extends r roots vm vm' := by
  have hb : Radix.Below shape vm.mem 4 (rootWord r) table (k + 1) := below_of_locate hl hd
  have hpos := treeTables_pos hr hb
  unfold Mm.nextTable at hrun
  split_ifs at hrun with hp
  · cases hrun
    refine ⟨h, fun next hnext => ?_, .refl r roots _⟩
    cases hnext
    rw [locate_of_locate hl hd hi, locate, shape_live, if_pos hp]
    rfl
  · rcases halloc : Mm.allocPageTable vm with ⟨t, vm1⟩
    rw [halloc] at hrun
    rcases h.allocPageTable halloc with ⟨rfl, rfl, -⟩ | ⟨t, rfl, ht, hmem, h1⟩
    · cases hrun
      exact ⟨h, fun next hnext => absurd hnext.symm (Option.some_ne_none next), .refl r roots _⟩
    · cases hrun
      have hkeep (y : Addr) (hy : vm.pmm.InUse y) : vm1.mem y = vm.mem y := by
        rw [hmem, update_of_ne (ht.ne hy)]
      have htables (y : Addr) (hy : 0 < treeTables vm.mem roots y) : vm1.mem y = vm.mem y :=
        hkeep y (h.managed_table hy)
      have hl1 : locate shape vm1.mem 4 (rootWord r) p = some table := by
        rw [← hl]
        exact locate_congr (fun y k hb => htables y (treeTables_pos hr hb)) p
      have hdead : present (vm1.mem table i) = false := by
        rw [htables table hpos]
        exact Bool.eq_false_of_not_eq_true hp
      have htf : IsFrame t := ht.managed.isFrame h.ok
      have hblank (j : Fin 512) : present (vm1.mem t j) = false := by
        rw [hmem, update_self]
        rfl
      obtain ⟨hforest, hlocate, hadded, hleaves, hspaces⟩ := h1.link hr hl1 hd hi hdead
        (present_tableEntry t flags) (tableAddr_tableEntry htf flags) hblank
      have hroots := (trees_congr htables).2.2
      have hself (x : Addr) (hx : 0 < treeTables vm.mem {r} x) : vm1.mem x = vm.mem x :=
        htables x (Nat.lt_of_lt_of_le hx (treeTables_single_le hr x))
      refine ⟨hforest, fun next hnext => ?_, fun r' hr' q => ?_, fun r' hr' x => ?_,
        fun x hx => ht.notFree hx, fun x hx hzero => ?_⟩
      · cases hnext
        exact hlocate
      · rw [hspaces r' hr' q]
        exact leafAt_congr (fun x hx => by
          obtain ⟨k', hb'⟩ := tableCount_pos.mp hx
          exact htables x (treeTables_pos hr' hb')) q
      · rw [hleaves r' hr', hroots r' hr']
      · have hne : x ≠ table := by
          rintro rfl
          have := treeTables_pos (mem_singleton_self r) hb
          omega
        have hnew := ht.ne_notFree hx
        rw [hadded, (trees_congr hself).1, if_neg (Ne.symm hnew), write_mem_of_ne _ hne, hmem,
          update_of_ne hnew]
        exact ⟨hzero, rfl⟩

end Table

/-- A held page is mapped. -/
theorem Forest.map_leaf {p : List (Fin 512)} {pt : Addr} {i : Fin 512} {w : Word}
    (h : Forest vm roots (phys ::ₘ loose) lost held) (hr : r ∈ roots)
    (hl : locate shape vm.mem 4 (rootWord r) p = some pt) (hlen : p.length = 3)
    (hdead : present (vm.mem pt i) = false) (hw : present w = true) (hframe : leafAddr w = phys) :
    Forest (vm.write pt i w) roots loose lost held ∧
      treeTables (vm.write pt i w).mem {r} = treeTables vm.mem {r} ∧
      ∀ r' ∈ roots, ∀ x, rootLeaves (vm.write pt i w).mem r' x ≤
        rootLeaves vm.mem r' x + if phys = x then 1 else 0 := by
  have hd : p.length + 0 + 1 = 4 := by omega
  have hi : i ∈ shape.seen 0 := mem_seen_of_ne (by decide) i
  have honce := (h.table_one (treeTables_pos hr (below_of_locate (k := 0) hl hd))).1.le
  have hleaf (mem : Addr → Page) (x : Addr) :
      leafCount shape mem 0 w x = if phys = x then 1 else 0 := by
    rw [leafCount, weight_zero_live hw, shape_frame, hframe]
  have hzero (x : Addr) : leafCount shape vm.mem 0 (vm.mem pt i) x = 0 :=
    weight_dead hdead
  have htables (roots' : Multiset Addr) (hr' : r ∈ roots')
      (honce' : treeTables vm.mem roots' pt ≤ 1) :
      treeTables (vm.write pt i w).mem roots' = treeTables vm.mem roots' := by
    funext x
    have hsum := (trees_write (w := w) hr' hl hd hi honce' x).1
    rwa [tableCount_zero, tableCount_zero] at hsum
  refine ⟨⟨h.accounts.move (x := phys) (fun x => ?_) fun x => ?_, h.roots_frame,
    fun r' hr' x => ?_⟩, htables {r} (mem_singleton_self r)
      ((treeTables_single_le hr pt).trans honce), fun r' hr' x => ?_⟩
  · rw [count_cons, htables roots hr honce]
    simp only [eq_comm (a := x)]
    omega
  · have hsum := (trees_write (w := w) hr hl hd hi honce x).2
    rw [hleaf, hzero] at hsum
    exact hsum
  · have hsum := rootLeaves_write (w := w) hr hl hd hi honce hr' x
    have hslim := h.slim r' hr' x
    rw [hleaf, hzero] at hsum
    by_cases hx : phys = x
    · have hle : rootLeaves vm.mem r' x ≤ treeLeaves vm.mem roots x := rootLeaves_le hr' x
      have hone := h.loose_one (mem_cons_self phys loose)
      rw [hx] at hone
      rw [if_pos hx] at hsum
      omega
    · rw [if_neg hx] at hsum
      omega
  · have hsum := rootLeaves_write (w := w) hr hl hd hi honce hr' x
    rw [hleaf, hzero] at hsum
    omega

/-- `vmm_map_page` of a held page: it is mapped and was not before, or nothing but missing
tables has been added. -/
theorem Forest.mapPage (h : Forest vm roots (phys ::ₘ loose) lost held) (hr : r ∈ roots)
    (hlow : (tableIndex virt 39).val < 256) (hflags : present flags = true)
    (hclean : leafAddr flags = 0) (hrun : vmmMapPage r virt phys flags vm = (ok, vm')) :
    (ok = false ∧ Forest vm' roots (phys ::ₘ loose) lost held ∧ Extends r roots vm vm') ∨
      (ok = true ∧ Forest vm' roots loose lost held ∧ leafAt vm.mem r (pagePath virt) = none ∧
        leafAt vm'.mem r (pagePath virt) = some (mapEntry phys flags) ∧
        (∀ r' ∈ roots, ∀ q, (r' ≠ r ∨ q ≠ pagePath virt) →
          leafAt vm'.mem r' q = leafAt vm.mem r' q) ∧
        (∀ x, 0 < rootLeaves vm'.mem r x → x = phys ∨ 0 < rootLeaves vm.mem r x) ∧
        ∀ x, vm.pmm.NotFree x → vm'.pmm.NotFree x ∧ (treeTables vm.mem {r} x = 0 →
          treeTables vm'.mem {r} x = 0 ∧ vm'.mem x = vm.mem x)) := by
  have hphys := h.isFrame_loose (mem_cons_self phys loose)
  have hframe := h.roots_frame r hr
  have hroot : locate shape vm.mem 4 (rootWord r) [] = some r := by
    rw [locate, shape_live, if_pos (present_rootWord hframe), shape_table,
      tableAddr_rootWord hframe]
  rcases vmmMapPage_walk (P := fun p table vm1 => Forest vm1 roots (phys ::ₘ loose) lost held ∧
      Extends r roots vm vm1 ∧ locate shape vm1.mem 4 (rootWord r) p = some table)
    (F := fun vm1 => Forest vm1 roots (phys ::ₘ loose) lost held ∧ Extends r roots vm vm1)
    ⟨h, .refl r roots vm, hroot⟩ (fun k p s table vm1 res vm2 hd htop hat hnext => by
      obtain ⟨h1, hx1, hl⟩ := hat
      obtain ⟨h2, hl2, hx2⟩ := h1.nextTable hr hl hd (mem_seen.mpr fun hk => by
        rw [htop hk]
        exact hlow) hnext
      cases res with
      | none => exact ⟨h2, hx1.trans hx2⟩
      | some next => exact ⟨h2, hx1.trans hx2, hl2 next rfl⟩) hrun
    with ⟨rfl, hfail⟩ | ⟨pt, vm3, ⟨h3, hx, hpt⟩, ⟨-, rfl, rfl⟩ | ⟨hdead, rfl, rfl⟩⟩
  · exact .inl ⟨rfl, hfail⟩
  · exact .inl ⟨rfl, h3, hx⟩
  · have hw : present (mapEntry phys flags) = true := by rw [present_mapEntry, hflags]
    have hpos := treeTables_pos hr (below_of_locate (k := 0) hpt rfl)
    have honce := (h3.table_one hpos).1.le
    obtain ⟨hself, hothers, hroots⟩ := leafAt_write hr hpt rfl honce (mapEntry phys flags)
    rw [if_pos hw] at hself
    have hbefore : leafAt vm3.mem r (pagePath virt) = none := by
      rw [leafAt_pagePath hframe hlow, findPt_eq_locate hframe hlow]
      rw [show locate shape vm3.mem 4 (rootWord r)
        [tableIndex virt 39, tableIndex virt 30, tableIndex virt 21] = some pt from hpt]
      rw [Option.bind_some, hdead, if_neg Bool.false_ne_true]
    obtain ⟨hforest, htables, hleaves⟩ := h3.map_leaf hr hpt rfl hdead hw
      (leafAddr_mapEntry hphys hclean)
    refine .inr ⟨rfl, hforest, ?_, hself, fun r' hr' q hne => ?_, fun x hleaf => ?_,
      fun x hux => ⟨hx.notFree x hux, fun hzero => ?_⟩⟩
    · rw [← hx.spaces r hr]
      exact hbefore
    · rw [← hx.spaces r' hr']
      by_cases hrr : r' = r
      · subst hrr
        exact hothers q (hne.resolve_left fun hn => hn rfl)
      · exact hroots r' hr' hrr q
    · have hle := hleaves r hr x
      rw [hx.leaves r hr x] at hle
      by_cases hphysx : phys = x
      · exact .inl hphysx.symm
      · rw [if_neg hphysx] at hle
        exact .inr (by omega)
    · obtain ⟨hzero3, hmem3⟩ := hx.pages x hux hzero
      have hne : x ≠ pt := by
        rintro rfl
        have := treeTables_pos (mem_singleton_self r)
          (below_of_locate (k := 0) hpt rfl)
        omega
      rw [htables, write_mem_of_ne _ hne]
      exact ⟨hzero3, hmem3⟩

/-! ## Forking -/

/-- What `task_fork` does with page tables. -/
def forkSpace (root : Addr) (vm : Vm) : Option Addr × Vm :=
  match vmmCreatePml4 vm with
  | (child, vm) =>
    if child = 0 then (none, vm)
    else
      match vmmCopyUserspace child root (vmmMapKernel root child vm) with
      | (true, vm) => (some child, vm)
      | (false, vm) => (none, (vmmFreeUserPages child vm).freePage child)

/-- `vmm_map_kernel` writes to the upper half of the new PML4 only. -/
theorem vmmMapKernel_spec (active pml4 : Addr) (vm : Vm) :
    (vmmMapKernel active pml4 vm).pmm = vm.pmm ∧
      (∀ x, x ≠ pml4 → (vmmMapKernel active pml4 vm).mem x = vm.mem x) ∧
      ∀ i : Fin 512, i.val < 256 → (vmmMapKernel active pml4 vm).mem pml4 i = vm.mem pml4 i := by
  have hupper : ∀ i ∈ upperHalf, 256 ≤ i.val := fun i hi => by
    simpa [upperHalf] using hi
  unfold vmmMapKernel
  generalize upperHalf = is at *
  induction is generalizing vm with
  | nil => exact ⟨rfl, fun _ _ => rfl, fun _ _ => rfl⟩
  | cons j is ih =>
    rw [List.foldl_cons]
    have ih := fun vm => ih vm fun i hi => hupper i (List.mem_cons_of_mem j hi)
    have hj := hupper j List.mem_cons_self
    split_ifs with hp
    · obtain ⟨hpmm, hothers, hlower⟩ := ih (vm.write pml4 j (vm.mem active j))
      refine ⟨hpmm, fun x hx => ?_, fun i hi => ?_⟩
      · rw [hothers x hx, write_mem_of_ne _ hx]
      · have hij : i ≠ j := by
          rintro rfl
          omega
        rw [hlower i hi, write_mem_self, update_of_ne hij]
    · exact ih vm

/-- The spaces after `forkSpace`. -/
structure Forked (vm : Vm) (roots : Multiset Addr) (root : Addr) (res : Option Addr) (vm' : Vm) :
    Prop where
  copy : ∀ child, res = some child → child ∉ roots ∧ vm.pmm.used child = false ∧ ∀ p,
    leafAt vm'.mem child p = (leafAt vm.mem root p).map cowEntry ∧
      leafAt vm'.mem root p = (leafAt vm.mem root p).map cowEntry
  edited : ∀ p, Option.Rel Cowed (leafAt vm.mem root p) (leafAt vm'.mem root p)
  others : ∀ r ∈ roots, r ≠ root → ∀ p, leafAt vm'.mem r p = leafAt vm.mem r p
  pages : ∀ x, vm.pmm.InUse x → treeTables vm.mem roots x = 0 → vm'.mem x = vm.mem x

/-- A fork keeps the accounts. No count goes missing that was below 255. -/
theorem Forest.fork {root : Addr} {res : Option Addr} (h : Forest vm roots loose lost held)
    (hr : root ∈ roots) (hrun : forkSpace root vm = (res, vm')) :
    Forked vm roots root res vm' ∧ ∃ lost',
      (∀ x, treeLeaves vm.mem roots x < 255 → lost x = 0 → lost' x = 0) ∧
      match res with
      | some child => Forest vm' (child ::ₘ roots) loose lost' held
      | none => Forest vm' roots loose lost' held := by
  have hrefl (o : Option Word) : Option.Rel Cowed o o := by
    cases o with
    | none => exact .none
    | some w => exact .some (.inl rfl)
  unfold forkSpace vmmCreatePml4 at hrun
  rcases halloc : Mm.allocPageTable vm with ⟨t, vm1⟩
  rw [halloc] at hrun
  rcases h.allocPageTable halloc with ⟨rfl, rfl, -⟩ | ⟨child, rfl, ht, hmem, h1⟩
  · cases hrun
    exact ⟨⟨nofun, fun p => hrefl _, fun _ _ _ _ => rfl, fun _ _ _ => rfl⟩, lost,
      fun _ _ hx => hx, h⟩
  dsimp only at hrun
  rw [if_neg (ht.managed.ne_zero h.ok)] at hrun
  obtain ⟨hpmm, hothers, hlower⟩ := vmmMapKernel_spec root child vm1
  generalize vmmMapKernel root child vm1 = vm2 at *
  have hkeep (x : Addr) (hx : vm.pmm.InUse x) : vm2.mem x = vm.mem x := by
    rw [hothers x (ht.ne hx), hmem, update_of_ne (ht.ne hx)]
  have htables (x : Addr) (hx : 0 < treeTables vm.mem roots x) : vm2.mem x = vm.mem x :=
    hkeep x (h.managed_table hx)
  obtain ⟨htree, hleaves, -⟩ := trees_congr htables
  have hspaces (r : Addr) (hr : r ∈ roots) (p : List (Fin 512)) :
      leafAt vm2.mem r p = leafAt vm.mem r p :=
    find_congr (fun x k hb => htables x (treeTables_pos hr hb)) p
  have hbare : Bare vm2.mem child := by
    intro i hi
    rw [hlower i hi, hmem, update_self]
    rfl
  have h2 : Forest vm2 (child ::ₘ roots) loose lost held := by
    refine (h1.mem_congr hpmm fun x hx => hothers x ?_).plant hbare
    rintro rfl
    have := h1.loose_one (mem_cons_self x loose)
    omega
  have hnew : child ∉ roots := fun hin => by
    have hpos := h1.root_pos hin
    have := h1.loose_one (mem_cons_self child loose)
    omega
  have hchild := h2.roots_frame child (mem_cons_self child roots)
  rcases hcopy : vmmCopyUserspace child root vm2 with ⟨ok, vm3⟩
  rw [hcopy] at hrun
  obtain ⟨h3, hc⟩ := h2.copy hbare hr hcopy
  have hpages (x : Addr) (hx : vm.pmm.InUse x) (hzero : treeTables vm.mem roots x = 0) :
      vm3.mem x = vm.mem x := by
    have hused : vm2.pmm.InUse x := by
      rw [hpmm]
      exact (Grown.take ht).inUse hx
    rw [hc.pages x hused, hkeep x hx]
    rw [treeTables_bare hchild hbare, htree, hzero, if_neg (ht.ne hx).symm]
  have hlost (x : Addr) (hx : treeLeaves vm.mem roots x < 255) (hzero : lost x = 0) :
      lost x + (vm2.pmm.count x + rootLeaves vm3.mem child x - 255) = 0 := by
    have hle : vm2.pmm.count x ≤ 255 := h2.ok.refs_le _
    have hslim := h3.slim child (mem_cons_self child roots) x
    by_cases hleaf : 0 < rootLeaves vm3.mem child x
    · have hshared := (hc.shared x hleaf).1
      have hsum : treeLeaves vm2.mem (child ::ₘ roots) x = _ := treeLeaves_bare hchild hbare
      obtain ⟨-, -, -, hcount⟩ := h2.accounts.owned x (by omega)
      have hsingle := h2.accounts.single x
      rw [hleaves] at hshared hsum
      omega
    · omega
  have hedited : ∀ p, Option.Rel Cowed (leafAt vm.mem root p) (leafAt vm3.mem root p) := fun p => by
    rw [← hspaces root hr]
    exact hc.edited p
  have hrest (r : Addr) (hr' : r ∈ roots) (hne : r ≠ root) (p : List (Fin 512)) :
      leafAt vm3.mem r p = leafAt vm.mem r p := by
    rw [hc.others r hr' hne, hspaces r hr']
  cases ok with
  | true =>
    cases hrun
    refine ⟨⟨fun c hres => ?_, hedited, hrest, hpages⟩, _, hlost, h3⟩
    cases hres
    refine ⟨hnew, ht.free, fun p => ?_⟩
    rw [← hspaces root hr]
    exact ⟨hc.copy rfl p, hc.source rfl p⟩
  | false =>
    cases hrun
    obtain ⟨h4, hbare4, hmem4, -⟩ := h3.freeUserPages fun x hx => .inr
      ⟨(hc.shared x hx).2, by rw [hc.leaves]; exact (hc.shared x hx).1⟩
    generalize vmmFreeUserPages child vm3 = vm4 at *
    have hsame (r : Addr) (hr' : r ∈ roots) (p : List (Fin 512)) :
        leafAt vm4.mem r p = leafAt vm3.mem r p :=
      leafAt_of_tables hr' (fun x hx => hmem4 x (h3.ne_root hx)) p
    refine ⟨⟨nofun, fun p => ?_, fun r hr' hne p => ?_, fun x hx hzero => ?_⟩, _, hlost,
      (h4.uproot hbare4).free_loose⟩
    · rw [freePage_mem, hsame root hr]
      exact hedited p
    · rw [freePage_mem, hsame r hr', hrest r hr' hne]
    · rw [freePage_mem, hmem4 x (ht.ne hx), hpages x hx hzero]

end Crius.Mm
