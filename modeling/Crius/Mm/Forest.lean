import Crius.Lib.Radix
import Crius.Mm.Accounts
import Crius.Mm.Vmm

/-!
# Address spaces as trees

The lower halves of the page tables as radix trees of depth 4: a space is the tree under a
word that points to its PML4, of which only the entries 0 to 255 belong to it. `Forest` says
that the spaces share no tables and that the page allocator's counts agree with the entries
that map each page. Every call of `mm/vmm.c` that builds an address space keeps it.
-/
namespace Crius.Mm

open Lib Function Multiset Radix

def shape : Radix.Shape Addr Word 512 where
  live := present
  table := tableAddr
  frame := leafAddr
  seen d := Finset.univ.filter fun i => d = 3 → i.val < 256

/-- A word that points to the PML4 of a space. -/
def rootWord (pml4 : Addr) : Word := linkEntry pml4 pagePresent

/-- How often `x` is a table of the spaces. -/
def treeTables (mem : Addr → Page) (roots : Multiset Addr) (x : Addr) : ℕ :=
  Radix.forest shape (fun _ => 0) (fun y => if y = x then 1 else 0) mem 4 (roots.map rootWord)

/-- The number of leaf entries of the spaces that map `x`. -/
def treeLeaves (mem : Addr → Page) (roots : Multiset Addr) (x : Addr) : ℕ :=
  Radix.forest shape (fun w => if leafAddr w = x then 1 else 0) (fun _ => 0) mem 4
    (roots.map rootWord)

/-- The number of leaf entries of one space that map `x`. -/
def rootLeaves (mem : Addr → Page) (pml4 x : Addr) : ℕ :=
  Radix.leafCount shape mem 4 (rootWord pml4) x

/-- The spaces with the PML4s `roots`, and pages `loose` that are held to become a part of
one. No space maps a page twice. -/
structure Forest (vm : Vm) (roots loose : Multiset Addr) (lost : Addr → ℕ) (held : Addr → Prop) :
    Prop where
  accounts : Accounts vm.pmm (fun x => loose.count x + treeTables vm.mem roots x)
    (treeLeaves vm.mem roots) lost held
  roots_frame : ∀ r ∈ roots, IsFrame r
  slim : ∀ r ∈ roots, ∀ x, rootLeaves vm.mem r x ≤ 1

/-- No user page is mapped. -/
def Bare (mem : Addr → Page) (pml4 : Addr) : Prop :=
  ∀ i : Fin 512, i.val < 256 → present (mem pml4 i) = false

@[simp] theorem shape_live (e : Word) : shape.live e = present e := rfl

@[simp] theorem shape_table (e : Word) : shape.table e = tableAddr e := rfl

@[simp] theorem shape_frame (e : Word) : shape.frame e = leafAddr e := rfl

theorem mem_seen {d : ℕ} {i : Fin 512} : i ∈ shape.seen d ↔ (d = 3 → i.val < 256) := by
  simp [shape]

theorem mem_seen_of_ne {d : ℕ} (hd : d ≠ 3) (i : Fin 512) : i ∈ shape.seen d :=
  mem_seen.mpr fun h => absurd h hd

theorem present_rootWord {r : Addr} (hr : IsFrame r) : present (rootWord r) = true := by
  rw [rootWord, present_linkEntry hr]
  rfl

theorem tableAddr_rootWord {r : Addr} (hr : IsFrame r) : tableAddr (rootWord r) = r :=
  tableAddr_linkEntry hr pagePresent

section Trees

variable {mem mem' : Addr → Page} {roots : Multiset Addr} {r x : Addr} {tableW : Addr → ℕ}
  {leafW : Word → ℕ}

theorem treeTables_cons : treeTables mem (r ::ₘ roots) x =
    tableCount shape mem 4 (rootWord r) x + treeTables mem roots x := by
  rw [treeTables, map_cons, forest_cons]
  rfl

theorem treeLeaves_cons : treeLeaves mem (r ::ₘ roots) x =
    rootLeaves mem r x + treeLeaves mem roots x := by
  rw [treeLeaves, map_cons, forest_cons]
  rfl

@[simp] theorem treeTables_zero : treeTables mem 0 x = 0 := rfl

@[simp] theorem treeLeaves_zero : treeLeaves mem 0 x = 0 := rfl

theorem treeTables_singleton : treeTables mem {r} x = tableCount shape mem 4 (rootWord r) x := by
  rw [← cons_zero, treeTables_cons, treeTables_zero, Nat.add_zero]

theorem treeLeaves_singleton : treeLeaves mem {r} x = rootLeaves mem r x := by
  rw [← cons_zero, treeLeaves_cons, treeLeaves_zero, Nat.add_zero]

/-- Memory with no space in it. -/
theorem forest_empty {vm : Vm} {held : Addr → Prop} (ok : vm.pmm.Ok)
    (hheld : ∀ x, held x ↔ vm.pmm.InUse x) : Forest vm 0 0 (fun _ => 0) held := by
  refine ⟨⟨ok, fun x hx => ?_, fun x hx => ?_, fun _ _ => rfl,
    fun x hm hu => .inr ((hheld x).mpr ⟨hm, hu⟩), fun x hx => ?_⟩, by simp, by simp⟩
  · simp at hx
  · simp at hx
  · obtain ⟨hm, hu⟩ := (hheld x).mp hx
    exact ⟨hm, hu, by simp⟩

theorem rootLeaves_le (hr : r ∈ roots) (x : Addr) :
    rootLeaves mem r x ≤ treeLeaves mem roots x := by
  obtain ⟨rest, rfl⟩ := exists_cons_of_mem hr
  rw [treeLeaves_cons]
  omega

theorem rootLeaves_add_le {r' : Addr} (hr : r ∈ roots) (hr' : r' ∈ roots) (hne : r' ≠ r) (x : Addr) :
    rootLeaves mem r x + rootLeaves mem r' x ≤ treeLeaves mem roots x := by
  obtain ⟨rest, rfl⟩ := exists_cons_of_mem hr
  have hle : rootLeaves mem r' x ≤ treeLeaves mem rest x :=
    rootLeaves_le ((mem_cons.mp hr').resolve_left hne) x
  rw [treeLeaves_cons]
  exact Nat.add_le_add_left hle _

/-- When no space maps a page twice, a page has at most one entry for each space. -/
theorem treeLeaves_le_card (h : ∀ r ∈ roots, ∀ x, rootLeaves mem r x ≤ 1) (x : Addr) :
    treeLeaves mem roots x ≤ roots.card := by
  induction roots using Multiset.induction_on with
  | empty => simp
  | cons r roots ih =>
    rw [treeLeaves_cons, Multiset.card_cons]
    have hone := h r (Multiset.mem_cons_self r roots) x
    have hrest := ih fun r' hr' => h r' (Multiset.mem_cons_of_mem hr')
    omega

theorem card_le_treeLeaves (h : ∀ r ∈ roots, 0 < rootLeaves mem r x) :
    roots.card ≤ treeLeaves mem roots x := by
  induction roots using Multiset.induction_on with
  | empty => exact Nat.zero_le _
  | cons r roots ih =>
    have hpos := h r (Multiset.mem_cons_self r roots)
    have hrest := ih fun r' hr' => h r' (Multiset.mem_cons_of_mem hr')
    rw [treeLeaves_cons, Multiset.card_cons]
    exact Nat.add_comm _ 1 ▸ Nat.add_le_add hpos hrest

theorem treeLeaves_eq_zero (h : ∀ r ∈ roots, rootLeaves mem r x = 0) :
    treeLeaves mem roots x = 0 := by
  induction roots using Multiset.induction_on with
  | empty => simp
  | cons r roots ih =>
    rw [treeLeaves_cons, ih fun r' hr' => h r' (Multiset.mem_cons_of_mem hr')]
    exact h r (Multiset.mem_cons_self r roots)

theorem treeTables_pos (hr : r ∈ roots) {k : ℕ} (hb : Radix.Below shape mem 4 (rootWord r) x k) :
    0 < treeTables mem roots x := by
  obtain ⟨rest, rfl⟩ := exists_cons_of_mem hr
  rw [treeTables_cons]
  have hpos := tableCount_pos.mpr ⟨k, hb⟩
  omega

theorem below_root (hr : IsFrame r) : Radix.Below shape mem 4 (rootWord r) r 3 := by
  have hb : Radix.Below shape mem 4 (rootWord r) (shape.table (rootWord r)) 3 :=
    below_table (present_rootWord hr)
  rwa [shape_table, tableAddr_rootWord hr] at hb

/-- The weight of a space, from the entries of its PML4. -/
theorem weight_root (hr : IsFrame r) :
    weight shape leafW tableW mem 4 (rootWord r) =
      tableW r + ∑ i ∈ shape.seen 3, weight shape leafW tableW mem 3 (mem r i) := by
  have h : weight shape leafW tableW mem (3 + 1) (rootWord r) =
      tableW (shape.table (rootWord r)) + ∑ i ∈ shape.seen 3,
        weight shape leafW tableW mem 3 (mem (shape.table (rootWord r)) i) :=
    weight_succ_live (present_rootWord hr)
  rwa [shape_table, tableAddr_rootWord hr] at h

theorem weight_bare (hr : IsFrame r) (hb : Bare mem r) :
    weight shape leafW tableW mem 4 (rootWord r) = tableW r := by
  rw [weight_root hr, Finset.sum_eq_zero, Nat.add_zero]
  intro i hi
  exact weight_dead (hb i (mem_seen.mp hi rfl))

section Bare

variable (hr : IsFrame r) (hb : Bare mem r)

include hr hb

theorem rootLeaves_bare : rootLeaves mem r x = 0 := by
  rw [rootLeaves, leafCount, weight_bare hr hb]

theorem treeTables_bare : treeTables mem (r ::ₘ roots) x =
    (if r = x then 1 else 0) + treeTables mem roots x := by
  rw [treeTables_cons, tableCount, weight_bare hr hb]

theorem treeLeaves_bare : treeLeaves mem (r ::ₘ roots) x = treeLeaves mem roots x := by
  rw [treeLeaves_cons, rootLeaves_bare hr hb, Nat.zero_add]

end Bare

/-- What happens outside of the tables does not change the spaces. -/
theorem trees_congr (h : ∀ x, 0 < treeTables mem roots x → mem' x = mem x) :
    treeTables mem' roots = treeTables mem roots ∧
      treeLeaves mem' roots = treeLeaves mem roots ∧
      ∀ r ∈ roots, rootLeaves mem' r = rootLeaves mem r := by
  have hsame (e : Word) (he : e ∈ roots.map rootWord) (x : Addr) (k : ℕ)
      (hb : Radix.Below shape mem 4 e x k) : mem' x = mem x := by
    obtain ⟨r, hr, rfl⟩ := mem_map.mp he
    exact h x (treeTables_pos hr hb)
  refine ⟨?_, ?_, fun r hr => ?_⟩
  · funext x
    exact forest_congr fun e he => weight_congr (hsame e he)
  · funext x
    exact forest_congr fun e he => weight_congr (hsame e he)
  · funext x
    exact weight_congr (hsame _ (mem_map_of_mem rootWord hr))

variable {vm : Vm} {p : List (Fin 512)} {f : Addr} {k : ℕ} {i : Fin 512} {w : Word}
  (hr : r ∈ roots) (hl : locate shape vm.mem 4 (rootWord r) p = some f)
  (hd : p.length + k + 1 = 4) (hi : i ∈ shape.seen k) (hone : treeTables vm.mem roots f ≤ 1)

include hr hl hd hi hone

/-- A change of one word of a table, as the accounts see it. -/
theorem trees_write (x : Addr) :
    treeTables (vm.write f i w).mem roots x + tableCount shape vm.mem k (vm.mem f i) x =
        treeTables vm.mem roots x + tableCount shape (vm.write f i w).mem k w x ∧
      treeLeaves (vm.write f i w).mem roots x + leafCount shape vm.mem k (vm.mem f i) x =
        treeLeaves vm.mem roots x + leafCount shape (vm.write f i w).mem k w x := by
  obtain ⟨rest, rfl⟩ := exists_cons_of_mem hr
  unfold treeTables at *
  unfold treeLeaves
  rw [map_cons] at *
  exact ⟨forest_write hl hd hi hone rfl, forest_write hl hd hi hone rfl⟩

/-- The same change, as each space sees it. -/
theorem rootLeaves_write {r' : Addr} (hr' : r' ∈ roots) (x : Addr) :
    rootLeaves (vm.write f i w).mem r' x = rootLeaves vm.mem r' x ∨
      rootLeaves (vm.write f i w).mem r' x + leafCount shape vm.mem k (vm.mem f i) x =
        rootLeaves vm.mem r' x + leafCount shape (vm.write f i w).mem k w x := by
  obtain ⟨rest, rfl⟩ := exists_cons_of_mem hr
  have hin := tableCount_pos.mpr ⟨k, below_of_locate hl hd⟩
  rw [treeTables_cons] at hone
  rcases mem_cons.mp hr' with rfl | hr'
  · exact .inr (weight_write hl hd hi (by omega) rfl)
  · refine .inl (weight_congr fun y k hb => vm.write_mem_of_ne ?_ i w)
    rintro rfl
    have := treeTables_pos hr' hb
    omega

end Trees

namespace Forest

variable {vm vm' : Vm} {roots loose : Multiset Addr} {lost : Addr → ℕ} {held : Addr → Prop}
  {r x : Addr}

section

variable (h : Forest vm roots loose lost held)

include h

theorem ok : vm.pmm.Ok := h.accounts.ok

/-- A table of a space, and a page held for one, is used for nothing else. -/
theorem table_one (hx : 0 < treeTables vm.mem roots x) :
    treeTables vm.mem roots x = 1 ∧ loose.count x = 0 ∧ treeLeaves vm.mem roots x = 0 := by
  have hone := h.accounts.single x (by omega)
  omega

theorem loose_one (hx : x ∈ loose) :
    loose.count x = 1 ∧ treeTables vm.mem roots x = 0 ∧ treeLeaves vm.mem roots x = 0 := by
  have hpos := count_pos.mpr hx
  have hone := h.accounts.single x (by omega)
  omega

theorem root_pos (hr : r ∈ roots) : 0 < treeTables vm.mem roots r :=
  treeTables_pos hr (below_root (h.roots_frame r hr))

theorem managed_table (hx : 0 < treeTables vm.mem roots x) : vm.pmm.InUse x := by
  obtain ⟨hm, hu, -⟩ := h.accounts.owned x (by omega)
  exact ⟨hm, hu⟩

theorem managed_loose (hx : x ∈ loose) : vm.pmm.InUse x := by
  have hpos := count_pos.mpr hx
  obtain ⟨hm, hu, -⟩ := h.accounts.owned x (by omega)
  exact ⟨hm, hu⟩

theorem isFrame_loose (hx : x ∈ loose) : IsFrame x :=
  (h.managed_loose hx).1.isFrame h.ok

/-- Memory outside of the tables may change. -/
theorem mem_congr (hpmm : vm'.pmm = vm.pmm)
    (hmem : ∀ x, 0 < treeTables vm.mem roots x → vm'.mem x = vm.mem x) :
    Forest vm' roots loose lost held := by
  obtain ⟨htables, hleaves, hroots⟩ := trees_congr hmem
  refine ⟨?_, h.roots_frame, fun r hr => ?_⟩
  · rw [hpmm, htables, hleaves]
    exact h.accounts
  · rw [hroots r hr]
    exact h.slim r hr

theorem setPage_loose (hx : x ∈ loose) (page : Page) :
    Forest (vm.setPage x page) roots loose lost held := by
  refine h.mem_congr rfl fun y hy => vm.setPage_mem_of_ne ?_ page
  rintro rfl
  have := h.loose_one hx
  omega

theorem take (ht : vm.pmm.Taken x vm'.pmm) (hmem : ∀ y, vm.pmm.InUse y → vm'.mem y = vm.mem y) :
    Forest vm' roots (x ::ₘ loose) lost held := by
  obtain ⟨htables, hleaves, hroots⟩ := trees_congr fun y hy => hmem y (h.managed_table hy)
  refine ⟨?_, h.roots_frame, fun r hr => ?_⟩
  · rw [htables, hleaves]
    refine h.accounts.take ht (fun y => ?_) fun y => rfl
    rw [count_cons]
    simp only [eq_comm (a := y)]
    omega
  · rw [hroots r hr]
    exact h.slim r hr

theorem allocPageTable {t : Option Addr} (ha : allocPageTable vm = (t, vm')) :
    (t = none ∧ vm' = vm ∧ ∀ y, vm.pmm.Managed y → vm.pmm.used y = true) ∨
      ∃ x, t = some x ∧ vm.pmm.Taken x vm'.pmm ∧
        vm'.mem = update vm.mem x (fun _ => 0) ∧
        Forest vm' roots (x ::ₘ loose) lost held := by
  rcases allocPageTable_spec h.ok ha with hnone | ⟨x, hx, ht, hmem⟩
  · exact .inl hnone
  · refine .inr ⟨x, hx, ht, hmem, h.take ht fun y hy => ?_⟩
    rw [hmem, update_of_ne (ht.ne hy)]

end

/-- The PML4 of a space is no table of another one. -/
theorem ne_root (h : Forest vm (r ::ₘ roots) loose lost held)
    (hx : 0 < treeTables vm.mem roots x) : x ≠ r := by
  rintro rfl
  have hself := mem_cons_self x roots
  have hone := (h.table_one (h.root_pos hself)).1
  have hpos : 0 < tableCount shape vm.mem 4 (rootWord x) x :=
    tableCount_pos.mpr ⟨3, below_root (h.roots_frame x hself)⟩
  rw [treeTables_cons] at hone
  omega

/-- A page that was held for a space is given back. -/
theorem free_loose (h : Forest vm roots (x ::ₘ loose) lost held) :
    Forest (vm.freePage x) roots loose lost held := by
  have hone := h.loose_one (mem_cons_self x loose)
  have hlost := h.accounts.owned x (by omega)
  refine ⟨h.accounts.freeAll (l := [x]) (fun y => ?_) (fun y => ?_) fun y hy => ?_,
    h.roots_frame, h.slim⟩
  · rw [count_cons, List.count_singleton]
    simp only [beq_iff_eq, eq_comm (a := y), Vm.freePage_mem]
    omega
  · rw [count_cons, Vm.freePage_mem]
    omega
  · obtain rfl := List.mem_singleton.mp hy
    rw [count_cons_self] at hone hlost
    rw [Vm.freePage_mem, List.count_singleton_self]
    omega

/-- A held page without user entries becomes the PML4 of a space. -/
theorem plant (h : Forest vm roots (x ::ₘ loose) lost held) (hb : Bare vm.mem x) :
    Forest vm (x ::ₘ roots) loose lost held := by
  have hx := h.isFrame_loose (mem_cons_self x loose)
  refine ⟨h.accounts.congr (fun y => ?_) fun y => ?_, fun r hr => ?_, fun r hr y => ?_⟩
  · rw [treeTables_bare hx hb, count_cons]
    simp only [eq_comm (a := y)]
    omega
  · rw [treeLeaves_bare hx hb]
  · rcases mem_cons.mp hr with rfl | hr
    · exact hx
    · exact h.roots_frame r hr
  · rcases mem_cons.mp hr with rfl | hr
    · rw [rootLeaves_bare hx hb]
      omega
    · exact h.slim r hr y

/-- `vmm_create_pml4`: nothing happens, or there is a new empty space. -/
theorem createPml4 {child : Addr} (h : Forest vm roots loose lost held)
    (hrun : vmmCreatePml4 vm = (child, vm')) :
    (child = 0 ∧ vm' = vm) ∨ (child ≠ 0 ∧ vm.pmm.Taken child vm'.pmm ∧
      vm'.mem = update vm.mem child (fun _ => 0) ∧ Bare vm'.mem child ∧
      Forest vm' (child ::ₘ roots) loose lost held) := by
  rw [vmmCreatePml4] at hrun
  rcases halloc : Mm.allocPageTable vm with ⟨t, vm1⟩
  rw [halloc] at hrun
  rcases h.allocPageTable halloc with ⟨rfl, rfl, -⟩ | ⟨x, rfl, ht, hmem, h1⟩
  · cases hrun
    exact .inl ⟨rfl, rfl⟩
  · obtain ⟨rfl, rfl⟩ := Prod.mk.inj hrun
    have hbare : Bare vm1.mem x := by
      intro i _
      rw [hmem, update_self]
      rfl
    exact .inr ⟨ht.managed.ne_zero h.ok, ht, hmem, hbare, h1.plant hbare⟩

/-- The PML4 of a space without user pages is an ordinary page again. -/
theorem uproot (h : Forest vm (x ::ₘ roots) loose lost held) (hb : Bare vm.mem x) :
    Forest vm roots (x ::ₘ loose) lost held := by
  have hx := h.roots_frame x (mem_cons_self x roots)
  refine ⟨h.accounts.congr (fun y => ?_) fun y => ?_, fun r hr =>
    h.roots_frame r (mem_cons_of_mem hr), fun r hr =>
    h.slim r (mem_cons_of_mem hr)⟩
  · rw [treeTables_bare hx hb, count_cons]
    simp only [eq_comm (a := y)]
    omega
  · rw [treeLeaves_bare hx hb]

end Forest

end Crius.Mm
