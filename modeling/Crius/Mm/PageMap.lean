import Crius.Mm.SmallSpace

/-!
# One page table as a finite map

A page table is looked at through some entries of its PML4, `top`; all of them for a table
that only `vmm_create_pml4` and `vmm_map_page` have built. Its tables are pages in use and no
table is reached twice, so a new table is disjoint from all of them and a write through one
path is seen by that path only.
-/
namespace Crius.Mm

open Lib Option Radix Function Finset BitVec Nat

/-- The tree under the entries `top` of a PML4. -/
def shapeOn (top : Finset (Fin 512)) : Radix.Shape Addr Word 512 where
  live := present
  table := tableAddr
  frame := leafAddr
  seen d := Finset.univ.filter fun i => d = 3 → i ∈ top

/-- The present leaf entry at the end of a path. -/
def entryAt (top : Finset (Fin 512)) (mem : Addr → Page) (r : Addr) (p : List (Fin 512)) :
    Option Word :=
  Radix.find (shapeOn top) mem 4 (rootWord r) p

/-- How often `x` is a table. -/
def tablesOf (top : Finset (Fin 512)) (mem : Addr → Page) (r x : Addr) : ℕ :=
  Radix.tableCount (shapeOn top) mem 4 (rootWord r) x

/-- The number of entries that map `x`. -/
def mapsOf (top : Finset (Fin 512)) (mem : Addr → Page) (r x : Addr) : ℕ :=
  Radix.leafCount (shapeOn top) mem 4 (rootWord r) x

/-- The tables are pages in use, and none is reached twice. -/
structure Tables (top : Finset (Fin 512)) (r : Addr) (vm : Vm) : Prop where
  ok : vm.pmm.Ok
  frame : IsFrame r
  used : ∀ x, 0 < tablesOf top vm.mem r x → vm.pmm.InUse x
  once : ∀ x, tablesOf top vm.mem r x ≤ 1

/-- Tables may have been added; entries and all other pages are as before. -/
structure Grows (top : Finset (Fin 512)) (r : Addr) (vm vm' : Vm) : Prop where
  entries : ∀ q, entryAt top vm'.mem r q = entryAt top vm.mem r q
  maps : ∀ x, mapsOf top vm'.mem r x = mapsOf top vm.mem r x
  inUse : ∀ x, vm.pmm.InUse x → vm'.pmm.InUse x
  pages : ∀ x, vm.pmm.InUse x → tablesOf top vm.mem r x = 0 →
    tablesOf top vm'.mem r x = 0 ∧ vm'.mem x = vm.mem x

variable {top : Finset (Fin 512)} {r virt phys : Addr} {vm vm' : Vm} {flags : Word} {ok : Bool}
  {i : Fin 512} {mem : Addr → Page} {p : List (Fin 512)}

theorem mem_seenOn {d : ℕ} : i ∈ (shapeOn top).seen d ↔ (d = 3 → i ∈ top) := by
  simp [shapeOn]

theorem mem_seenOn_of_ne {d : ℕ} (hd : d ≠ 3) (i : Fin 512) : i ∈ (shapeOn top).seen d :=
  mem_seenOn.mpr fun h => absurd h hd

theorem tablesOf_pos {x : Addr} {k : ℕ} (h : Radix.Below (shapeOn top) mem 4 (rootWord r) x k) :
    0 < tablesOf top mem r x :=
  tableCount_pos.mpr ⟨k, h⟩

theorem Grows.refl (top : Finset (Fin 512)) (r : Addr) (vm : Vm) : Grows top r vm vm :=
  ⟨fun _ => rfl, fun _ => rfl, fun _ hx => hx, fun _ _ hx => ⟨hx, rfl⟩⟩

theorem Grows.trans {vm1 : Vm} (h : Grows top r vm vm1) (h' : Grows top r vm1 vm') :
    Grows top r vm vm' := by
  refine ⟨fun q => (h'.entries q).trans (h.entries q), fun x => (h'.maps x).trans (h.maps x),
    fun x hx => h'.inUse x (h.inUse x hx), fun x hx hzero => ?_⟩
  obtain ⟨hzero1, hmem1⟩ := h.pages x hx hzero
  obtain ⟨hzero2, hmem2⟩ := h'.pages x (h.inUse x hx) hzero1
  exact ⟨hzero2, hmem2.trans hmem1⟩

/-! ## Memory outside of the tables -/

section Congr

variable {mem mem' : Addr → Page} (h : ∀ x, 0 < tablesOf top mem r x → mem' x = mem x)

include h

theorem tablesOf_congr : tablesOf top mem' r = tablesOf top mem r :=
  funext fun _ => weight_congr fun x _ hb => h x (tablesOf_pos hb)

theorem mapsOf_congr : mapsOf top mem' r = mapsOf top mem r :=
  funext fun _ => weight_congr fun x _ hb => h x (tablesOf_pos hb)

theorem entryAt_congr : entryAt top mem' r = entryAt top mem r :=
  funext fun p => find_congr (fun x _ hb => h x (tablesOf_pos hb)) p

end Congr

theorem Tables.mem_congr (h : Tables top r vm) (hok : vm'.pmm.Ok)
    (hkeep : ∀ x, 0 < tablesOf top vm.mem r x → vm'.pmm.InUse x ∧ vm'.mem x = vm.mem x) :
    Tables top r vm' := by
  have htables := tablesOf_congr fun x hx => (hkeep x hx).2
  refine ⟨hok, h.frame, fun x hx => ?_, fun x => ?_⟩
  · rw [htables] at hx
    exact (hkeep x hx).1
  · rw [htables]
    exact h.once x

/-! ## One level of the walk -/

theorem Tables.locate_root (h : Tables top r vm) :
    locate (shapeOn top) vm.mem 4 (rootWord r) [] = some r := by
  have hlive : (shapeOn top).live (rootWord r) = true := present_rootWord h.frame
  rw [locate, if_pos hlive]
  exact congrArg some (tableAddr_rootWord h.frame)

theorem Tables.nextTable {table : Addr} {k : ℕ} {res : Option Addr} (h : Tables top r vm)
    (hl : locate (shapeOn top) vm.mem 4 (rootWord r) p = some table)
    (hd : p.length + (k + 1) + 1 = 4) (hi : i ∈ (shapeOn top).seen (k + 1))
    (hrun : Mm.nextTable table i flags vm = (res, vm')) :
    Tables top r vm' ∧ (∀ next, res = some next →
        locate (shapeOn top) vm'.mem 4 (rootWord r) (p ++ [i]) = some next) ∧
      Grows top r vm vm' := by
  have hpos := tablesOf_pos (below_of_locate hl hd)
  rw [Mm.nextTable] at hrun
  split_ifs at hrun with hp
  · cases hrun
    refine ⟨h, fun next hnext => ?_, .refl top r _⟩
    cases hnext
    have hlive : (shapeOn top).live (vm.mem table i) = true := hp
    rw [locate_of_locate hl hd hi, locate, if_pos hlive]
    rfl
  · rcases halloc : allocPageTable vm with ⟨t, vm1⟩
    rw [halloc] at hrun
    rcases allocPageTable_spec h.ok halloc with ⟨rfl, rfl, -⟩ | ⟨t, rfl, ht, hmem⟩
    · cases hrun
      exact ⟨h, fun next hnext => absurd hnext.symm (some_ne_none next), .refl top r _⟩
    · cases hrun
      have hkeep (x : Addr) (hx : vm.pmm.InUse x) : vm1.pmm.InUse x ∧ vm1.mem x = vm.mem x := by
        refine ⟨(Grown.take ht).inUse hx, ?_⟩
        rw [hmem, update_of_ne (ht.ne hx)]
      have hsame (x : Addr) (hx : 0 < tablesOf top vm.mem r x) : vm1.mem x = vm.mem x :=
        (hkeep x (h.used x hx)).2
      have h1 : Tables top r vm1 := h.mem_congr ht.ok fun x hx => hkeep x (h.used x hx)
      have hl1 : locate (shapeOn top) vm1.mem 4 (rootWord r) p = some table := by
        rw [← hl]
        exact locate_congr (fun x _ hb => hsame x (tablesOf_pos hb)) p
      have hdead : (shapeOn top).live (vm1.mem table i) = false := by
        rw [hsame table hpos]
        exact Bool.eq_false_of_not_eq_true hp
      have hpoint : (shapeOn top).table (tableEntry t flags) = t :=
        tableAddr_tableEntry (ht.managed.isFrame h.ok) flags
      have hnew : t ≠ table := (ht.ne (h.used table hpos)).symm
      have hblank (j : Fin 512) (_ : j ∈ (shapeOn top).seen k) :
          (shapeOn top).live (vm1.mem ((shapeOn top).table (tableEntry t flags)) j) = false := by
        rw [hpoint, hmem, update_self]
        rfl
      obtain ⟨hadded, hmaps, hentries, hlocate⟩ := graft hl1 hd hi (h1.once table) hdead
        (present_tableEntry t flags) (fun heq => hnew (hpoint.symm.trans heq)) hblank
        (vm1.write_mem table i (tableEntry t flags))
      rw [hpoint] at hadded hlocate
      have hcount (x : Addr) : tablesOf top (vm1.write table i (tableEntry t flags)).mem r x =
          tablesOf top vm.mem r x + if t = x then 1 else 0 := by
        rw [← tablesOf_congr hsame]
        exact hadded x
      have hfresh : tablesOf top vm.mem r t = 0 := by
        apply Nat.eq_zero_of_not_pos
        intro htpos
        exact ht.ne (h.used t htpos) rfl
      refine ⟨⟨h1.ok, h.frame, fun x hx => ?_, fun x => ?_⟩, fun next hnext => ?_, fun q => ?_,
        fun x => ?_, fun x hx => (hkeep x hx).1, fun x hx hzero => ?_⟩
      · rw [hcount] at hx
        by_cases htx : t = x
        · rw [← htx]
          exact (Grown.take ht).inUse_new List.mem_cons_self
        · rw [if_neg htx] at hx
          exact (hkeep x (h.used x hx)).1
      · rw [hcount]
        by_cases htx : t = x
        · rw [← htx, hfresh, if_pos rfl]
        · rw [if_neg htx]
          exact h.once x
      · cases hnext
        exact hlocate
      · rw [← entryAt_congr hsame]
        exact hentries q
      · rw [← mapsOf_congr hsame]
        exact hmaps x
      · have htx : t ≠ x := (ht.ne hx).symm
        have hne : x ≠ table := by
          intro heq
          rw [heq] at hzero
          omega
        rw [hcount, if_neg htx, hzero, Vm.write_mem_of_ne _ hne]
        exact ⟨rfl, (hkeep x hx).2⟩

/-! ## Mapping a page -/

/-- The walk of `vmm_map_page`: a table is missing and cannot be made, or the walk ends at an
entry of a page table, which is left alone if it is present. -/
theorem Tables.walk (h : Tables top r vm) (htop : tableIndex virt 39 ∈ top)
    (hrun : vmmMapPage r virt phys flags vm = (ok, vm')) :
    (ok = false ∧ Tables top r vm' ∧ Grows top r vm vm') ∨
      ∃ pt vm1, Tables top r vm1 ∧ Grows top r vm vm1 ∧
        locate (shapeOn top) vm1.mem 4 (rootWord r)
          [tableIndex virt 39, tableIndex virt 30, tableIndex virt 21] = some pt ∧
        present (vm1.mem pt (tableIndex virt 12)) = false ∧ ok = true ∧
        vm' = vm1.write pt (tableIndex virt 12) (mapEntry phys flags) := by
  rcases vmmMapPage_walk (P := fun p table vm1 => Tables top r vm1 ∧ Grows top r vm vm1 ∧
      locate (shapeOn top) vm1.mem 4 (rootWord r) p = some table)
    (F := fun vm1 => Tables top r vm1 ∧ Grows top r vm vm1)
    ⟨h, .refl top r vm, h.locate_root⟩ (fun k p s table vm1 res vm2 hd hs hat hnext => by
      obtain ⟨h1, hg1, hl⟩ := hat
      obtain ⟨h2, hl2, hg2⟩ := h1.nextTable hl hd (mem_seenOn.mpr fun hk => by
        rw [hs hk]
        exact htop) hnext
      cases res with
      | none => exact ⟨h2, hg1.trans hg2⟩
      | some next => exact ⟨h2, hg1.trans hg2, hl2 next rfl⟩) hrun
    with ⟨rfl, hfail⟩ | ⟨pt, vm1, ⟨h1, hg, hl⟩, ⟨-, rfl, rfl⟩ | ⟨hdead, rfl, rfl⟩⟩
  · exact .inl ⟨rfl, hfail⟩
  · exact .inl ⟨rfl, h1, hg⟩
  · exact .inr ⟨pt, vm1, h1, hg, hl, hdead, rfl, rfl⟩

/-- The code's walk and the entry that it ends at. -/
theorem entryAt_pagePath (hr : IsFrame r) (htop : tableIndex virt 39 ∈ top) :
    entryAt top vm.mem r (pagePath virt) = (findPt vm r virt).bind fun pt =>
      if present (vm.mem pt (tableIndex virt 12)) = true then some (vm.mem pt (tableIndex virt 12))
      else none :=
  find_pagePath rfl rfl hr (mem_seenOn.mpr fun _ => htop) (mem_seenOn_of_ne (by decide) _)
    (mem_seenOn_of_ne (by decide) _) (mem_seenOn_of_ne (by decide) _)

theorem vmmGetPhys_eq_entryAt (hr : IsFrame r) (htop : tableIndex virt 39 ∈ top) :
    vmmGetPhys vm r virt = ((entryAt top vm.mem r (pagePath virt)).map leafAddr).getD 0 :=
  vmmGetPhys_of_entry (entryAt_pagePath hr htop)

/-- An entry of a page table is changed. -/
theorem Tables.write_leaf {pt : Addr} (h : Tables top r vm)
    (hl : locate (shapeOn top) vm.mem 4 (rootWord r) p = some pt) (hlen : p.length = 3) (w : Word) :
    Tables top r (vm.write pt i w) ∧ tablesOf top (vm.write pt i w).mem r = tablesOf top vm.mem r ∧
      entryAt top (vm.write pt i w).mem r (p ++ [i]) = (if present w = true then some w else none) ∧
      (∀ q, q ≠ p ++ [i] → entryAt top (vm.write pt i w).mem r q = entryAt top vm.mem r q) ∧
      ∀ x, mapsOf top (vm.write pt i w).mem r x +
          (if present (vm.mem pt i) = true ∧ leafAddr (vm.mem pt i) = x then 1 else 0) =
        mapsOf top vm.mem r x + if present w = true ∧ leafAddr w = x then 1 else 0 := by
  have hd : p.length + 0 + 1 = 4 := by omega
  have hi : i ∈ (shapeOn top).seen 0 := mem_seenOn_of_ne (by decide) i
  have hone := h.once pt
  have hmem := vm.write_mem pt i w
  have htables : tablesOf top (vm.write pt i w).mem r = tablesOf top vm.mem r := by
    funext x
    have hnone (mem : Addr → Page) (e : Word) : tableCount (shapeOn top) mem 0 e x = 0 :=
      ite_self 0
    have hsum : tablesOf top (vm.write pt i w).mem r x + _ = tablesOf top vm.mem r x + _ :=
      weight_write hl hd hi hone hmem
    rw [show weight (shapeOn top) _ _ _ 0 _ = 0 from hnone _ _,
      show weight (shapeOn top) _ _ _ 0 w = 0 from hnone _ _] at hsum
    exact hsum
  obtain ⟨hself, hothers⟩ := find_leaf hl hd hi hone hmem
  refine ⟨⟨h.ok, h.frame, fun x hx => ?_, fun x => ?_⟩, htables, hself, hothers, fun x => ?_⟩
  · rw [htables] at hx
    exact h.used x hx
  · rw [htables]
    exact h.once x
  · have hleaf (mem : Addr → Page) (e : Word) : leafCount (shapeOn top) mem 0 e x =
        if present e = true ∧ leafAddr e = x then 1 else 0 := by
      show (if present e = true then if leafAddr e = x then 1 else 0 else 0) = _
      rw [ite_and]
    have hsum : mapsOf top (vm.write pt i w).mem r x + _ = mapsOf top vm.mem r x + _ :=
      weight_write hl hd hi hone hmem
    rw [show weight (shapeOn top) _ _ _ 0 (vm.mem pt i) = _ from hleaf _ _,
      show weight (shapeOn top) _ _ _ 0 w = _ from hleaf _ _] at hsum
    exact hsum

/-- `vmm_map_page`: the page was not mapped and is now, or no entry has changed. -/
structure Mapped (top : Finset (Fin 512)) (r virt : Addr) (w : Word) (vm vm' : Vm) : Prop where
  before : entryAt top vm.mem r (pagePath virt) = none
  self : entryAt top vm'.mem r (pagePath virt) = some w
  others : ∀ q, q ≠ pagePath virt → entryAt top vm'.mem r q = entryAt top vm.mem r q
  maps : ∀ x, mapsOf top vm'.mem r x = mapsOf top vm.mem r x + if leafAddr w = x then 1 else 0
  inUse : ∀ x, vm.pmm.InUse x → vm'.pmm.InUse x
  pages : ∀ x, vm.pmm.InUse x → tablesOf top vm.mem r x = 0 →
    tablesOf top vm'.mem r x = 0 ∧ vm'.mem x = vm.mem x

theorem Tables.mapPage (h : Tables top r vm) (htop : tableIndex virt 39 ∈ top)
    (hflags : present flags = true) (hrun : vmmMapPage r virt phys flags vm = (ok, vm')) :
    Tables top r vm' ∧ (ok = false ∧ Grows top r vm vm' ∨
      ok = true ∧ Mapped top r virt (mapEntry phys flags) vm vm') := by
  rcases h.walk htop hrun with ⟨rfl, h', hg⟩ | ⟨pt, vm1, h1, hg, hl, hdead, rfl, rfl⟩
  · exact ⟨h', .inl ⟨rfl, hg⟩⟩
  · have hw : present (mapEntry phys flags) = true := by rw [present_mapEntry, hflags]
    obtain ⟨h', htables, hself, hothers, hmaps⟩ := h1.write_leaf (i := tableIndex virt 12) hl rfl
      (mapEntry phys flags)
    rw [if_pos hw] at hself
    refine ⟨h', .inr ⟨rfl, ?_, hself, fun q hq => ?_, fun x => ?_, hg.inUse, fun x hx hzero => ?_⟩⟩
    · rw [← hg.entries, entryAt_pagePath h1.frame htop, findPt_eq_locateIn rfl rfl h1.frame
        (mem_seenOn.mpr fun _ => htop) (mem_seenOn_of_ne (by decide) _)
        (mem_seenOn_of_ne (by decide) _), hl, bind_some, hdead, if_neg Bool.false_ne_true]
    · rw [← hg.entries]
      exact hothers q hq
    · have hsum := hmaps x
      simp only [hdead, hw, Bool.false_eq_true, false_and, if_false, true_and, add_zero] at hsum
      rw [hsum, hg.maps]
    · obtain ⟨hzero1, hmem1⟩ := hg.pages x hx hzero
      have hne : x ≠ pt := by
        intro heq
        have hpos := tablesOf_pos (below_of_locate (k := 0) hl rfl)
        rw [← heq] at hpos
        omega
      rw [htables, Vm.write_mem_of_ne _ hne]
      exact ⟨hzero1, hmem1⟩

/-! ## Page tables that only these calls have built -/

/-- A PML4 made by `vmm_create_pml4` and changed by `vmm_map_page` only. Between the calls the
rest of the kernel may allocate, free and write pages, but not those of the page table. -/
inductive Built (r : Addr) : Vm → Prop where
  | create {vm vm' : Vm} (ok : vm.pmm.Ok) (hr : r ≠ 0) (hrun : vmmCreatePml4 vm = (r, vm')) :
      Built r vm'
  | map {vm : Vm} (h : Built r vm) (virt phys : Addr) (flags : Word) :
      Built r (vmmMapPage r virt phys flags vm).2
  | other {vm vm' : Vm} (h : Built r vm) (ok : vm'.pmm.Ok)
      (keep : ∀ x, 0 < tablesOf Finset.univ vm.mem r x → vm'.pmm.InUse x ∧ vm'.mem x = vm.mem x) :
      Built r vm'

/-- The address of a page, below 2^48. -/
def IsPage (virt : Addr) : Prop := virt.toNat % 4096 = 0 ∧ virt.toNat < 2 ^ 48

/-- The frame that a page is mapped to. -/
def translation (vm : Vm) (r virt : Addr) : Option Addr :=
  (entryAt Finset.univ vm.mem r (pagePath virt)).map leafAddr

theorem tables_empty (hr : IsFrame r) (hempty : ∀ i ∈ top, present (mem r i) = false) :
    (∀ x, tablesOf top mem r x = if r = x then 1 else 0) ∧
      ∀ p, entryAt top mem r p = none := by
  have hlive : (shapeOn top).live (rootWord r) = true := present_rootWord hr
  have hpoint : (shapeOn top).table (rootWord r) = r := tableAddr_rootWord hr
  have hdead (i : Fin 512) (hi : i ∈ (shapeOn top).seen 3) : (shapeOn top).live (mem r i) = false :=
    hempty i (mem_seenOn.mp hi rfl)
  refine ⟨fun x => ?_, fun p => ?_⟩
  · rw [tablesOf, tableCount, weight_succ_live hlive, hpoint,
      sum_eq_zero fun i hi => weight_dead (hdead i hi), add_zero]
  · cases p with
    | nil => rfl
    | cons i p =>
      by_cases hi : i ∈ (shapeOn top).seen 3
      · rw [entryAt, find_live hlive hi, hpoint]
        exact find_dead (hdead i hi) p
      · exact find_eq_none fun h => hi h.2

/-- A new PML4. -/
theorem Tables.start (hok : vm.pmm.Ok) (hr : vm.pmm.InUse r)
    (hempty : ∀ i ∈ top, present (vm.mem r i) = false) : Tables top r vm := by
  have hframe := hr.1.isFrame hok
  obtain ⟨htables, -⟩ := tables_empty hframe hempty
  refine ⟨hok, hframe, fun x hx => ?_, fun x => ?_⟩
  · rw [htables] at hx
    by_cases hrx : r = x
    · exact hrx ▸ hr
    · rw [if_neg hrx] at hx
      exact absurd hx (lt_irrefl 0)
  · rw [htables]
    split <;> omega

theorem Built.tables (h : Built r vm) : Tables univ r vm := by
  induction h with
  | @create vm vm' ok hr hrun =>
    rw [vmmCreatePml4] at hrun
    rcases halloc : allocPageTable vm with ⟨t, vm1⟩
    rw [halloc] at hrun
    rcases allocPageTable_spec ok halloc with ⟨rfl, -⟩ | ⟨x, rfl, ht, hmem⟩
    · exact absurd (Prod.mk.inj hrun).1.symm hr
    · cases hrun
      apply Tables.start ht.ok ((Grown.take ht).inUse_new List.mem_cons_self)
      intro i _
      rw [hmem, update_self]
      rfl
  | @map vm h virt phys flags ih =>
    rcases hrun : vmmMapPage r virt phys flags vm with ⟨ok, vm'⟩
    rcases ih.walk (mem_univ _) hrun with ⟨-, h', -⟩ | ⟨pt, vm1, h1, -, hl, -, -, rfl⟩
    · exact h'
    · exact (h1.write_leaf hl rfl _).1
  | other h ok keep ih => exact ih.mem_congr ok keep

/-! ## Addresses and paths -/

theorem tableIndex_val (virt : Addr) (s : ℕ) : (tableIndex virt s).val = virt.toNat / 2 ^ s % 512 := by
  have hindex : (virt >>> s &&& 0x1FF).toNat = virt.toNat / 2 ^ s % 512 := by
    rw [toNat_and, toNat_ushiftRight, shiftRight_eq_div_pow]
    exact and_two_pow_sub_one_eq_mod _ 9
  show (virt >>> s &&& 0x1FF).toNat % 512 = _
  rw [hindex]
  omega

/-- Different pages have different paths. -/
theorem pagePath_inj {virt page : Addr} (hvirt : IsPage virt) (hpage : IsPage page)
    (h : pagePath page = pagePath virt) : page = virt := by
  obtain ⟨hvirt, hvlt⟩ := hvirt
  obtain ⟨hpage, hplt⟩ := hpage
  have hindex (s : ℕ) (hs : tableIndex page s = tableIndex virt s) :
      page.toNat / 2 ^ s % 512 = virt.toNat / 2 ^ s % 512 := by
    rw [← tableIndex_val, ← tableIndex_val, hs]
  simp only [pagePath, List.cons.injEq, and_true] at h
  obtain ⟨h39, h30, h21, h12⟩ := h
  have h39 := hindex 39 h39
  have h30 := hindex 30 h30
  have h21 := hindex 21 h21
  have h12 := hindex 12 h12
  apply eq_of_toNat_eq
  omega

theorem Built.vmmGetPhys_eq (h : Built r vm) (virt : Addr) :
    vmmGetPhys vm r virt = (translation vm r virt).getD 0 :=
  vmmGetPhys_eq_entryAt h.tables.frame (mem_univ _)

/-- Page tables are finite maps: `vmm_map_page` adds one page that was not mapped, or leaves
every page as it is. The page is mapped to `phys` when the flags are flags only, without bits of
an address. -/
theorem vmmMapPage_finite_map (h : Built r vm) (hvirt : IsPage virt) (hphys : IsFrame phys)
    (hflags : present flags = true) (hrun : vmmMapPage r virt phys flags vm = (ok, vm')) :
    (ok = true → translation vm r virt = none ∧
        (leafAddr flags = 0 → vmmGetPhys vm' r virt = phys) ∧
        ∀ page, IsPage page → page ≠ virt → vmmGetPhys vm' r page = vmmGetPhys vm r page) ∧
      (ok = false → ∀ page, vmmGetPhys vm' r page = vmmGetPhys vm r page) := by
  have h' : Built r vm' := by
    have hmap := h.map virt phys flags
    rwa [hrun] at hmap
  rcases h.tables.mapPage (mem_univ _) hflags hrun with ⟨-, ⟨rfl, hgrows⟩ | ⟨rfl, hmapped⟩⟩
  · refine ⟨fun hfalse => absurd hfalse Bool.false_ne_true, fun _ page => ?_⟩
    rw [h'.vmmGetPhys_eq, h.vmmGetPhys_eq, translation, translation, hgrows.entries]
  · refine ⟨fun _ => ⟨?_, fun hclean => ?_, fun page hpage hne => ?_⟩,
      fun hfalse => absurd hfalse.symm Bool.false_ne_true⟩
    · rw [translation, hmapped.before, map_none]
    · rw [h'.vmmGetPhys_eq, translation, hmapped.self, map_some, getD_some]
      exact leafAddr_mapEntry hphys hclean
    · have hpath : pagePath page ≠ pagePath virt := fun heq => hne (pagePath_inj hvirt hpage heq)
      rw [h'.vmmGetPhys_eq, h.vmmGetPhys_eq, translation, translation, hmapped.others _ hpath]

/-- The first page of an empty space. -/
theorem vmmMapPage_first_page :
    vmmGetPhys (vmmMapPage 0x100000 0 0x101000 7 (vmmCreatePml4 emptyVm).2).2 0x100000 0 = 0x101000 := by
  have hcreate : (vmmCreatePml4 emptyVm).1 = 0x100000 := by decide
  have hdone : (vmmMapPage 0x100000 0 0x101000 7 (vmmCreatePml4 emptyVm).2).1 = true := by decide
  have hbuilt : Built 0x100000 (vmmCreatePml4 emptyVm).2 :=
    .create forest_emptyVm.ok (by decide) (by rw [← hcreate])
  rcases hrun : vmmMapPage 0x100000 0 0x101000 7 (vmmCreatePml4 emptyVm).2 with ⟨ok, vm'⟩
  rw [hrun] at hdone
  exact ((vmmMapPage_finite_map hbuilt ⟨rfl, by decide⟩ (by decide) (by decide) hrun).1
    hdone).2.1 (by decide)

end Crius.Mm
