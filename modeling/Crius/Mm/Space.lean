import Crius.Mm.Copy

/-!
# What the calls of `mm/vmm.c` do to address spaces

An address space is seen through `leafAt`, the leaf entry at the end of a path of four
indices. For each call: `Forest` holds again, and which entries and pages have changed.
-/
namespace Crius.Mm

open Lib Function Multiset Option Radix BitVec Nat

/-- The present leaf entry at the end of a path. -/
def leafAt (mem : Addr → Page) (pml4 : Addr) (p : List (Fin 512)) : Option Word :=
  Radix.find shape mem 4 (rootWord pml4) p

/-- The path that the walks follow for a virtual address. -/
def pagePath (virt : Addr) : List (Fin 512) :=
  [tableIndex virt 39, tableIndex virt 30, tableIndex virt 21, tableIndex virt 12]

variable {vm vm' : Vm} {roots loose : Multiset Addr} {lost : Addr → ℕ} {held : Addr → Prop}
  {root child x : Addr} {ok : Bool} {p : List (Fin 512)} {e : Word}

section Roots

variable {mem mem' : Addr → Page} {r : Addr}

theorem tableCount_root (hr : IsFrame r) (x : Addr) :
    tableCount shape mem 4 (rootWord r) x =
      (if r = x then 1 else 0) + tablesUnder mem 3 r (indices 3) x := by
  rw [tableCount_succ _ _ (present_rootWord hr), tableAddr_rootWord hr]

theorem rootLeaves_eq (hr : IsFrame r) (x : Addr) :
    rootLeaves mem r x = leavesUnder mem 3 r (indices 3) x := by
  rw [rootLeaves, leafCount_succ (present_rootWord hr), tableAddr_rootWord hr]

/-- Words that were edited in place point where they did. -/
theorem trees_edit (mem' : Addr → Page)
    (h : ∀ x, 0 < treeTables mem roots x → ∀ j, Cowed (mem x j) (mem' x j)) :
    treeTables mem' roots = treeTables mem roots ∧
      treeLeaves mem' roots = treeLeaves mem roots ∧
      (∀ r ∈ roots, rootLeaves mem' r = rootLeaves mem r) ∧
      ∀ r ∈ roots, ∀ p, Option.Rel Cowed (leafAt mem r p) (leafAt mem' r p) := by
  have hedit (r : Addr) (hr : r ∈ roots) : Radix.Edit shape Cowed mem mem' 4 (rootWord r) :=
    fun x k hb => h x (treeTables_pos hr hb)
  have hlive : ∀ w w', Cowed w w' → shape.live w' = shape.live w := fun _ _ => Cowed.live
  have htable : ∀ w w', Cowed w w' → shape.table w' = shape.table w := fun _ _ => Cowed.table
  have hleaf (x : Addr) (w w' : Word) (hw : Cowed w w') :
      (if leafAddr w' = x then 1 else 0) = if leafAddr w = x then 1 else 0 := by
    rw [hw.frame]
  refine ⟨funext fun x => ?_, funext fun x => ?_, fun r hr => funext fun x => ?_, fun r hr p => ?_⟩
  · refine forest_congr fun e he => ?_
    obtain ⟨r, hr, rfl⟩ := mem_map.mp he
    exact (hedit r hr).weight hlive htable (fun _ _ _ => rfl) (.inl rfl)
  · refine forest_congr fun e he => ?_
    obtain ⟨r, hr, rfl⟩ := mem_map.mp he
    exact (hedit r hr).weight hlive htable (hleaf x) (.inl rfl)
  · exact (hedit r hr).weight hlive htable (hleaf x) (.inl rfl)
  · exact (hedit r hr).find hlive htable (.inl rfl) p

/-- A space whose tables did not change. -/
theorem leafAt_congr (h : ∀ x, 0 < tableCount shape mem 4 (rootWord r) x → mem' x = mem x)
    (p : List (Fin 512)) : leafAt mem' r p = leafAt mem r p :=
  find_congr (fun x k hb => h x (tableCount_pos.mpr ⟨k, hb⟩)) p

/-- Spaces whose tables did not change. -/
theorem leafAt_of_tables (hr : r ∈ roots)
    (hmem : ∀ x, 0 < treeTables mem roots x → mem' x = mem x) (p : List (Fin 512)) :
    leafAt mem' r p = leafAt mem r p := by
  refine leafAt_congr (fun x hx => hmem x ?_) p
  obtain ⟨k, hb⟩ := tableCount_pos.mp hx
  exact treeTables_pos hr hb

theorem leafAt_of_bare (hr : IsFrame r) (hb : Bare mem r) (p : List (Fin 512)) :
    leafAt mem r p = none := by
  cases p with
  | nil => rfl
  | cons i p =>
    by_cases hi : i ∈ shape.seen 3
    · rw [leafAt, find_live (present_rootWord hr) hi, shape_table, tableAddr_rootWord hr]
      exact find_dead (hb i (mem_seen.mp hi rfl)) p
    · exact find_eq_none fun hand => hi hand.2

theorem rootLeaves_pos (h : leafAt mem r p = some e) : 0 < rootLeaves mem r (leafAddr e) :=
  leafCount_pos h

theorem treeLeaves_pos (hr : r ∈ roots) (h : leafAt mem r p = some e) :
    0 < treeLeaves mem roots (leafAddr e) :=
  lt_of_lt_of_le (rootLeaves_pos h) (rootLeaves_le hr _)

end Roots

/-! ## Copying -/

/-- The spaces after `vmm_copy_userspace` of `root` to `child`. -/
structure CopiedSpace (vm : Vm) (root child : Addr) (roots : Multiset Addr) (ok : Bool) (vm' : Vm) :
    Prop where
  copy : ok = true → ∀ p, leafAt vm'.mem child p = (leafAt vm.mem root p).map cowEntry
  source : ok = true → ∀ p, leafAt vm'.mem root p = (leafAt vm.mem root p).map cowEntry
  edited : ∀ p, Option.Rel Cowed (leafAt vm.mem root p) (leafAt vm'.mem root p)
  others : ∀ r ∈ roots, r ≠ root → ∀ p, leafAt vm'.mem r p = leafAt vm.mem r p
  pages : ∀ x, vm.pmm.InUse x → treeTables vm.mem (child ::ₘ roots) x = 0 → vm'.mem x = vm.mem x
  upper : ∀ r ∈ child ::ₘ roots, ∀ j : Fin 512, 256 ≤ j.val → vm'.mem r j = vm.mem r j
  leaves : treeLeaves vm'.mem roots = treeLeaves vm.mem roots
  tables : ∀ x, 0 < treeTables vm.mem roots x → ∀ j, Cowed (vm.mem x j) (vm'.mem x j)
  shared : ∀ x, 0 < rootLeaves vm'.mem child x →
    0 < treeLeaves vm.mem roots x ∧ 1 < vm'.pmm.count x

namespace Forest

section

variable (h : Forest vm roots loose lost held)

include h

/-- A page that is mapped is in use, and no table. -/
theorem mapped_page {r : Addr} (hr : r ∈ roots) (he : leafAt vm.mem r p = some e) :
    vm.pmm.InUse (leafAddr e) ∧ treeTables vm.mem roots (leafAddr e) = 0 := by
  have hpos := treeLeaves_pos hr he
  obtain ⟨hm, hu, -, -⟩ := h.accounts.owned (leafAddr e) (by omega)
  refine ⟨⟨hm, hu⟩, ?_⟩
  by_contra htable
  have := h.accounts.single (leafAddr e) (by omega)
  omega

/-- A page with one entry is mapped at one place. -/
theorem mapped_once {r r' : Addr} {q : List (Fin 512)} {e' : Word} (hr : r ∈ roots)
    (hr' : r' ∈ roots) (he : leafAt vm.mem r p = some e) (he' : leafAt vm.mem r' q = some e')
    (hframe : leafAddr e' = leafAddr e) (hone : treeLeaves vm.mem roots (leafAddr e) ≤ 1) :
    r' = r ∧ q = p := by
  have hpos := rootLeaves_pos he
  have hpos' := rootLeaves_pos he'
  rw [hframe] at hpos'
  obtain rfl : r' = r := by
    by_contra hne
    have hsum : rootLeaves vm.mem r (leafAddr e) + rootLeaves vm.mem r' (leafAddr e) ≤ _ :=
      rootLeaves_add_le hr hr' hne (leafAddr e)
    omega
  exact ⟨rfl, (path_unique (h.slim r' hr _) he he' hframe).symm⟩

/-- No two spaces have the same PML4. -/
theorem roots_nodup : roots.Nodup := by
  refine nodup_iff_ne_cons_cons.mpr fun r rest heq => ?_
  rw [heq] at h
  have hframe := h.roots_frame r (mem_cons_self r _)
  exact h.ne_root (treeTables_pos (mem_cons_self r rest) (below_root hframe)) rfl

end

section

variable (h : Forest vm (child ::ₘ roots) loose lost held) (hb : Bare vm.mem child)
  (hr : root ∈ roots)

include h hb hr

theorem ready_copy : Ready 3 vm child root (indices 3) := by
  have hchild := h.roots_frame child (mem_cons_self child roots)
  have hroot := h.roots_frame root (mem_cons_of_mem hr)
  have hclaims (x : Addr) : claims vm.mem 3 child root (indices 3) x ≤
      treeTables vm.mem (child ::ₘ roots) x := by
    obtain ⟨rest, rfl⟩ := exists_cons_of_mem hr
    rw [claims, treeTables_cons, treeTables_cons, tableCount_root hroot, tableCount,
      weight_bare hchild hb]
    omega
  refine ⟨h.ok, fun x => ?_, fun x hx => ?_, fun i hi => ?_, fun x hx => ?_⟩
  · have hle := hclaims x
    by_cases hpos : 0 < treeTables vm.mem (child ::ₘ roots) x
    · have hone := h.table_one hpos
      omega
    · omega
  · exact h.managed_table (lt_of_lt_of_le hx (hclaims x))
  · exact hb i (mem_seen.mp (mem_indices.mp hi) rfl)
  · have hle : rootLeaves vm.mem root x ≤ treeLeaves vm.mem (child ::ₘ roots) x :=
      rootLeaves_le (mem_cons_of_mem hr) x
    rw [rootLeaves_eq hroot] at hle
    obtain ⟨hm, hu, -⟩ := h.accounts.owned x (by omega)
    exact ⟨hm, hu⟩

/-- `vmm_copy_userspace`. The counts that `pmm_incref` could not raise are `lost`. -/
theorem copy (hrun : vmmCopyUserspace child root vm = (ok, vm')) :
    Forest vm' (child ::ₘ roots) loose
        (fun x => lost x + (vm.pmm.count x + rootLeaves vm'.mem child x - 255)) held ∧
      CopiedSpace vm root child roots ok vm' := by
  have hchild := h.roots_frame child (mem_cons_self child roots)
  have hroot := h.roots_frame root (mem_cons_of_mem hr)
  have hready := h.ready_copy hb hr
  obtain ⟨new, hc⟩ := copiesTable_vmmCopyUserspace _ _ _ _ _ hready hrun
  have hbare (x : Addr) : treeTables vm.mem (child ::ₘ roots) x = _ := treeTables_bare hchild hb
  have hused (x : Addr) (hx : 0 < treeTables vm.mem roots x) : vm.pmm.InUse x ∧ x ≠ child := by
    have hpos : 0 < treeTables vm.mem (child ::ₘ roots) x := by
      rw [hbare]
      omega
    refine ⟨h.managed_table hpos, ?_⟩
    rintro rfl
    have hone := (h.table_one hpos).1
    rw [hbare, if_pos rfl] at hone
    omega
  obtain ⟨htables, hleaves, hroots, hedited⟩ := trees_edit vm'.mem fun x hx =>
    hc.edit x (hused x hx).1 (hused x hx).2
  have hadd : rootLeaves vm'.mem child = leavesUnder vm'.mem 3 child (indices 3) :=
    funext (rootLeaves_eq hchild)
  have hle (x : Addr) : rootLeaves vm'.mem child x ≤ rootLeaves vm.mem root x := by
    rw [hadd, rootLeaves_eq hroot]
    exact hc.leaves x
  have hbare_leaves (x : Addr) : treeLeaves vm.mem (child ::ₘ roots) x = _ :=
    treeLeaves_bare hchild hb
  have hupper (x : Addr) (hx : 0 < treeTables vm.mem roots x)
      (hzero : tableCount shape vm.mem 4 (rootWord root) x = 0) : vm'.mem x = vm.mem x := by
    rw [tableCount_root hroot] at hzero
    refine hc.frame x (hused x hx).1 (hused x hx).2 ?_ (by omega)
    rintro rfl
    rw [if_pos rfl] at hzero
    omega
  -- the tables of another space are not the ones that are copied
  have hother {r x : Addr} {k : ℕ} (hr' : r ∈ roots) (hne : r ≠ root)
      (hb' : Radix.Below shape vm.mem 4 (rootWord r) x k) : vm'.mem x = vm.mem x := by
    obtain ⟨rest, rfl⟩ := exists_cons_of_mem hr
    have hpos := treeTables_pos ((mem_cons.mp hr').resolve_left hne) hb'
    have hsum : treeTables vm.mem (root ::ₘ rest) x = _ := treeTables_cons
    have hone := (h.table_one (x := x) (by rw [hbare]; omega)).1
    rw [hbare] at hone
    exact hupper x (by omega) (by omega)
  refine ⟨⟨?_, h.roots_frame, fun r hr' x => ?_⟩, ?_, ?_, hedited root hr, fun r hr' hne p => ?_,
    fun x hx hzero => ?_, fun r hr' j hj => ?_, hleaves,
    fun x hx => hc.edit x (hused x hx).1 (hused x hx).2, fun x hx => ?_⟩
  · have hgrown : Grown vm.pmm new (rootLeaves vm'.mem child) vm'.pmm := by
      rw [hadd]
      exact hc.grown
    refine h.accounts.grow hgrown (fun x => ?_) (fun x => ?_) (fun x => ?_)
    · rw [hbare_leaves]
      exact (hle x).trans (rootLeaves_le hr x)
    · rw [treeTables_cons, tableCount_root hchild, hc.tables, htables, hbare]
      omega
    · rw [treeLeaves_cons, hleaves, hbare_leaves]
      omega
  · rcases mem_cons.mp hr' with rfl | hr'
    · exact (hle x).trans (h.slim root (mem_cons_of_mem hr) x)
    · rw [hroots r hr']
      exact h.slim r (mem_cons_of_mem hr') x
  · intro htrue p
    refine find_succ_map (present_rootWord hroot) (present_rootWord hchild) (fun i hi q => ?_) p
    rw [tableAddr_rootWord hroot, tableAddr_rootWord hchild]
    exact (hc.found htrue i hi q).1
  · intro htrue p
    refine find_succ_map (present_rootWord hroot) (present_rootWord hroot) (fun i hi q => ?_) p
    rw [tableAddr_rootWord hroot]
    exact (hc.found htrue i hi q).2
  · refine leafAt_congr (fun x hx => ?_) p
    obtain ⟨k, hb'⟩ := tableCount_pos.mp hx
    exact hother hr' hne hb'
  · rw [hbare] at hzero
    obtain ⟨rest, rfl⟩ := exists_cons_of_mem hr
    rw [treeTables_cons, tableCount_root hroot] at hzero
    refine hc.frame x hx ?_ ?_ (by omega)
    · rintro rfl
      rw [if_pos rfl] at hzero
      omega
    · rintro rfl
      rw [if_pos (rfl : x = x)] at hzero
      omega
  · have hj' : j ∉ indices 3 := by
      rw [mem_indices, mem_seen]
      intro hlt
      have := hlt rfl
      omega
    rcases mem_cons.mp hr' with rfl | hr'
    · exact (hc.others j hj').1
    · by_cases hne : r = root
      · rw [hne]
        exact (hc.others j hj').2
      · rw [hother hr' hne (below_root (h.roots_frame r (mem_cons_of_mem hr')))]
  · have hpos : 0 < rootLeaves vm.mem root x := lt_of_lt_of_le hx (hle x)
    have htree : rootLeaves vm.mem root x ≤ treeLeaves vm.mem roots x := rootLeaves_le hr x
    refine ⟨by omega, ?_⟩
    have hbl := hbare_leaves x
    obtain ⟨hm, hu, hcount, -⟩ := h.accounts.owned x (by omega)
    rw [hc.grown.count x hm (hc.grown.not_mem_new ⟨hm, hu⟩), ← hadd]
    omega

end

end Forest

/-! ## Freeing -/

section Free

variable {mem : Addr → Page} {ℓ : ℕ} {t r : Addr} {is : List (Fin 512)}

/-- The pages that are freed for the words `is` of a table, in order. -/
def framesUnder (mem : Addr → Page) (ℓ : ℕ) (t : Addr) (is : List (Fin 512)) : List Addr :=
  is.flatMap fun i => Radix.frames shape mem ℓ (mem t i)

def Vm.freeAll (vm : Vm) (l : List Addr) : Vm := { vm with pmm := l.foldl pmmFreePage vm.pmm }

@[simp] theorem Vm.freeAll_mem (l : List Addr) : (vm.freeAll l).mem = vm.mem := rfl

theorem Vm.freeAll_append (l l' : List Addr) : vm.freeAll (l ++ l') = (vm.freeAll l).freeAll l' := by
  unfold Vm.freeAll
  rw [List.foldl_append]

theorem count_framesUnder (x : Addr) : (framesUnder mem ℓ t is).count x =
    leavesUnder mem ℓ t is x + tablesUnder mem ℓ t is x := by
  induction is with
  | nil => rfl
  | cons i is ih =>
    have hl : leavesUnder mem ℓ t ([i] ++ is) x = _ := leavesUnder_append
    have ht : tablesUnder mem ℓ t ([i] ++ is) x = _ := tablesUnder_append
    rw [leavesUnder_singleton] at hl
    rw [tablesUnder_singleton] at ht
    rw [List.singleton_append] at hl ht
    rw [framesUnder, List.flatMap_cons, List.count_append, frames_count]
    have ih : (is.flatMap fun i => frames shape mem ℓ (mem t i)).count x = _ := ih
    omega

theorem SameUnder.framesUnder {mem' : Addr → Page} (h : SameUnder mem mem' t is ℓ) :
    framesUnder mem' ℓ t is = framesUnder mem ℓ t is := by
  refine List.flatMap_congr fun i hi => ?_
  rw [h.word i hi]
  exact frames_congr fun y k hb => h.tables y (tablesUnder_pos hi hb)

/-- A function that frees everything under a table whose words have level `ℓ`. -/
def FreesTable (ℓ : ℕ) (freeTable : Addr → Vm → Vm) : Prop :=
  ∀ t vm, freeTable t vm = vm.freeAll (framesUnder vm.mem ℓ t (indices ℓ))

theorem foldl_freeAll {step : Vm → Fin 512 → Vm} (is : List (Fin 512))
    (hstep : ∀ vm' i, vm'.mem = vm.mem →
      step vm' i = vm'.freeAll (frames shape vm.mem ℓ (vm.mem t i))) :
    is.foldl step vm = vm.freeAll (framesUnder vm.mem ℓ t is) := by
  suffices h : ∀ vm', vm'.mem = vm.mem →
      is.foldl step vm' = vm'.freeAll (framesUnder vm.mem ℓ t is) from h vm rfl
  induction is with
  | nil => exact fun _ _ => rfl
  | cons i is ih =>
    intro vm' hmem
    rw [List.foldl_cons, hstep vm' i hmem, ih (vm'.freeAll _) hmem, framesUnder, framesUnder,
      List.flatMap_cons, Vm.freeAll_append]

theorem frames_zero (e : Word) :
    frames shape mem 0 e = if present e = true then [leafAddr e] else [] := rfl

theorem frames_succ (e : Word) : frames shape mem (ℓ + 1) e =
    if present e = true then framesUnder mem ℓ (tableAddr e) (indices ℓ) ++ [tableAddr e] else [] := by
  rw [frames]
  rfl

theorem freesTable_freeUserPt : FreesTable 0 freeUserPt := by
  intro t vm
  rw [indices_of_ne 0 (by decide)]
  refine foldl_freeAll _ fun vm' i hmem => ?_
  rw [hmem]
  by_cases hp : present (vm.mem t i) = true
  · rw [frames_zero, if_pos hp, if_pos hp]
    rfl
  · rw [frames_zero, if_neg hp, if_neg hp]
    rfl

theorem freesTable_freeEntries {freeTable : Addr → Vm → Vm} (hne : ℓ + 1 ≠ 3)
    (hfree : FreesTable ℓ freeTable) : FreesTable (ℓ + 1) (freeEntries freeTable) := by
  intro t vm
  rw [indices_of_ne _ hne]
  refine foldl_freeAll _ fun vm' i hmem => ?_
  rw [hmem]
  by_cases hp : present (vm.mem t i) = true
  · rw [frames_succ, if_pos hp, if_pos hp, hfree, Vm.freeAll_append, hmem]
    rfl
  · rw [frames_succ, if_neg hp, if_neg hp]
    rfl

theorem freesTable_freeUserPdpt : FreesTable 2 freeUserPdpt :=
  freesTable_freeEntries (by decide) (freesTable_freeEntries (by decide) freesTable_freeUserPt)

/-- `vmm_free_user_pages`, when the PML4 is not one of the tables under it: everything is
freed and the entries are cleared. -/
theorem foldl_freePml4Entry (is : List (Fin 512)) (hnodup : is.Nodup)
    (hout : tablesUnder vm.mem 3 r is r = 0) :
    is.foldl (freePml4Entry r) vm = (vm.freeAll (framesUnder vm.mem 3 r is)).setPage r
      (fun j => if j ∈ is ∧ present (vm.mem r j) = true then 0 else vm.mem r j) := by
  induction is generalizing vm with
  | nil => simp [framesUnder, Vm.freeAll, Vm.setPage]
  | cons i is ih =>
    obtain ⟨hi, hnodup⟩ := List.nodup_cons.mp hnodup
    have hsplit : tablesUnder vm.mem 3 r ([i] ++ is) r = _ := tablesUnder_append
    rw [List.singleton_append, hout] at hsplit
    rw [List.foldl_cons, freePml4Entry, framesUnder, List.flatMap_cons, Vm.freeAll_append]
    by_cases hp : present (vm.mem r i) = true
    · rw [if_pos hp, freesTable_freeUserPdpt, frames_succ, if_pos hp, Vm.freeAll_append]
      generalize hvm1 : Vm.write _ r i 0 = vm1
      have hmem : vm1.mem = update vm.mem r (update (vm.mem r) i 0) := by
        rw [← hvm1, Vm.write_mem, Vm.freePage_mem, Vm.freeAll_mem]
      have hpmm : vm1.pmm = pmmFreePage (vm.freeAll (framesUnder vm.mem 2 (tableAddr (vm.mem r i))
          (indices 2))).pmm (tableAddr (vm.mem r i)) := by
        rw [← hvm1, Vm.write_pmm, Vm.freePage_pmm]
      have hsame : SameUnder vm.mem vm1.mem r is 3 := by
        refine ⟨fun j hj => ?_, fun x hx => ?_⟩
        · have hji : j ≠ i := by
            rintro rfl
            exact hi hj
          rw [hmem, update_self, update_of_ne hji]
        · have hxr : x ≠ r := by
            rintro rfl
            omega
          rw [hmem, update_of_ne hxr]
      rw [ih hnodup (by rw [hsame.tablesUnder]; omega), hsame.framesUnder]
      refine Vm.ext ?_ ?_
      · rw [Vm.setPage_pmm, Vm.setPage_pmm, Vm.freeAll, hpmm]
        rfl
      · rw [Vm.setPage_mem, Vm.setPage_mem, Vm.freeAll_mem, Vm.freeAll_mem, Vm.freeAll_mem,
          Vm.freeAll_mem, hmem, update_idem]
        refine congrArg (update vm.mem r) (funext fun j => ?_)
        rw [update_self]
        by_cases hj : j = i
        · subst hj
          simp [hi, hp]
        · simp [hj]
    · rw [if_neg hp, ih hnodup (by omega), frames_succ, if_neg hp]
      refine congrArg (Vm.setPage _ r) (funext fun j => ?_)
      by_cases hj : j = i
      · subst hj
        simp [hi, hp]
      · simp [hj]

/-- `vmm_free_user_pages` of a space. A page that other spaces map, too, has to have a count
that shows it. -/
theorem Forest.freeUserPages (h : Forest vm (r ::ₘ roots) loose lost held)
    (hkeep : ∀ x, 0 < rootLeaves vm.mem r x →
      lost x = 0 ∨ 1 < vm.pmm.count x ∧ 0 < treeLeaves vm.mem roots x) :
    Forest (vmmFreeUserPages r vm) (r ::ₘ roots) loose lost held ∧
      Bare (vmmFreeUserPages r vm).mem r ∧
      (∀ x, x ≠ r → (vmmFreeUserPages r vm).mem x = vm.mem x) ∧
      (vmmFreeUserPages r vm).pmm = (framesUnder vm.mem 3 r (indices 3)).foldl pmmFreePage vm.pmm := by
  have hself : r ∈ r ::ₘ roots := mem_cons_self r roots
  have hr := h.roots_frame r hself
  have htables (x : Addr) : treeTables vm.mem (r ::ₘ roots) x =
      (if r = x then 1 else 0) + tablesUnder vm.mem 3 r (indices 3) x + treeTables vm.mem roots x := by
    rw [treeTables_cons, tableCount_root hr]
  have hleaves (x : Addr) : treeLeaves vm.mem (r ::ₘ roots) x =
      leavesUnder vm.mem 3 r (indices 3) x + treeLeaves vm.mem roots x := by
    rw [treeLeaves_cons, rootLeaves_eq hr]
  have hroot_one := (h.table_one (h.root_pos hself)).1
  rw [htables, if_pos rfl] at hroot_one
  have hout : tablesUnder vm.mem 3 r (indices 3) r = 0 := by omega
  have hrun := foldl_freePml4Entry (indices 3) (nodup_indices 3) hout
  rw [indices_three] at hrun
  rw [vmmFreeUserPages, hrun, ← indices_three]
  generalize hvm' : Vm.setPage _ r _ = vm'
  have hpmm : vm'.pmm = (framesUnder vm.mem 3 r (indices 3)).foldl pmmFreePage vm.pmm := by
    rw [← hvm', Vm.setPage_pmm, Vm.freeAll]
  have hothers (x : Addr) (hx : x ≠ r) : vm'.mem x = vm.mem x := by
    rw [← hvm', Vm.setPage_mem_of_ne _ hx, Vm.freeAll_mem]
  have hbare : Bare vm'.mem r := by
    intro j hj
    have hin : j ∈ indices 3 := mem_indices.mpr (mem_seen.mpr fun _ => hj)
    rw [← hvm', Vm.setPage_mem_self]
    by_cases hp : present (vm.mem r j) = true
    · rw [if_pos ⟨hin, hp⟩]
      rfl
    · rw [if_neg fun hand => hp hand.2]
      exact Bool.eq_false_of_not_eq_true hp
  obtain ⟨hrest_tables, hrest_leaves, hrest_roots⟩ :=
    trees_congr fun x hx => hothers x (h.ne_root hx)
  refine ⟨⟨?_, h.roots_frame, fun r' hr' x => ?_⟩, hbare, hothers, hpmm⟩
  · rw [hpmm]
    refine h.accounts.freeAll (fun x => ?_) (fun x => ?_) fun x hx => ?_
    · rw [treeTables_bare hr hbare, treeLeaves_bare hr hbare, hrest_tables, hrest_leaves, htables,
        hleaves, count_framesUnder]
      omega
    · rw [treeTables_bare hr hbare, hrest_tables, htables]
      omega
    · rw [treeTables_bare hr hbare, treeLeaves_bare hr hbare, hrest_tables, hrest_leaves]
      have hpos := List.count_pos_iff.mpr hx
      have hcount : (framesUnder vm.mem 3 r (indices 3)).count x = _ := count_framesUnder x
      have hsingle := h.accounts.single x
      obtain ⟨-, -, hcpos, hcsum⟩ := h.accounts.owned x (by rw [htables, hleaves]; omega)
      rw [htables, hleaves] at hsingle hcsum
      by_cases ht : 0 < tablesUnder vm.mem 3 r (indices 3) x
      · have := hsingle (by omega)
        omega
      · have hslim := h.slim r hself x
        have hkeep' := hkeep x
        rw [rootLeaves_eq hr] at hslim hkeep'
        have hnot : ¬0 < loose.count x + ((if r = x then 1 else 0) +
            tablesUnder vm.mem 3 r (indices 3) x + treeTables vm.mem roots x) :=
          fun hpos' => by
            have := hsingle hpos'
            omega
        omega
  · rcases mem_cons.mp hr' with rfl | hr'
    · rw [rootLeaves_bare hr hbare]
      omega
    · rw [hrest_roots r' hr']
      exact h.slim r' (mem_cons_of_mem hr') x

end Free

/-! ## Single entries -/

section Entries

variable {r : Addr} {virt : Addr} {p : List (Fin 512)} {f : Addr} {i : Fin 512} {w : Word}

theorem tableIndex_page {k : ℕ} (hk : 12 ≤ k) :
    tableIndex (virt &&& ~~~0xFFF) k = tableIndex virt k := by
  have hword : (virt &&& ~~~0xFFF) >>> k = virt >>> k := by
    refine eq_of_getLsbD_eq fun i hi => ?_
    rw [getLsbD_ushiftRight, getLsbD_ushiftRight]
    by_cases hlt : k + i < 64
    · rw [show virt &&& ~~~0xFFF = tableAddr virt from rfl, getLsbD_tableAddr _ hlt]
      simp
      omega
    · rw [getLsbD_of_ge _ _ (by omega), getLsbD_of_ge _ _ (by omega)]
  rw [tableIndex, hword, tableIndex]

theorem pagePath_page : pagePath (virt &&& ~~~0xFFF) = pagePath virt := by
  simp only [pagePath, tableIndex_page (show 12 ≤ 39 by decide),
    tableIndex_page (show 12 ≤ 30 by decide), tableIndex_page (show 12 ≤ 21 by decide),
    tableIndex_page (le_refl 12)]

section

variable {S : Radix.Shape Addr Word 512} (hlive : S.live = present) (htable : S.table = tableAddr)
  (hr : IsFrame r) (h3 : tableIndex virt 39 ∈ S.seen 3) (h2 : tableIndex virt 30 ∈ S.seen 2)
  (h1 : tableIndex virt 21 ∈ S.seen 1)

include hlive htable hr h3 h2 h1

/-- The walk of the code follows the path through the tree, whichever entries of the PML4 are
looked at. -/
theorem findPt_eq_locateIn :
    findPt vm r virt = locate S vm.mem 4 (rootWord r)
      [tableIndex virt 39, tableIndex virt 30, tableIndex virt 21] := by
  simp only [findPt, tableUnder, locate, hlive, htable, present_rootWord hr,
    tableAddr_rootWord hr, h3, h2, h1, and_true, if_true, bind_eq_bind]
  by_cases hp1 : present (vm.mem r (tableIndex virt 39)) = true
  · rw [if_pos hp1, if_pos hp1, bind_some]
    by_cases hp2 : present (vm.mem (tableAddr (vm.mem r (tableIndex virt 39)))
        (tableIndex virt 30)) = true
    · rw [if_pos hp2, if_pos hp2, bind_some]
    · rw [if_neg hp2, if_neg hp2]
      rfl
  · rw [if_neg hp1, if_neg hp1]
    rfl

/-- The walk of the code and the entry that it ends at. -/
theorem find_pagePath (h0 : tableIndex virt 12 ∈ S.seen 0) :
    find S vm.mem 4 (rootWord r) (pagePath virt) = (findPt vm r virt).bind fun pt =>
      if present (vm.mem pt (tableIndex virt 12)) = true then some (vm.mem pt (tableIndex virt 12))
      else none := by
  have hpath : pagePath virt = [tableIndex virt 39, tableIndex virt 30, tableIndex virt 21] ++
    [tableIndex virt 12] := rfl
  rw [findPt_eq_locateIn hlive htable hr h3 h2 h1, hpath]
  cases hl : locate S vm.mem 4 (rootWord r)
      [tableIndex virt 39, tableIndex virt 30, tableIndex virt 21] with
  | none => exact find_of_locate_none (k := 0) hl rfl
  | some pt =>
    rw [find_of_locate (k := 0) hl rfl h0, bind_some, find, hlive]

end

theorem vmmGetPhys_of_entry {o : Option Word} (h : o = (findPt vm r virt).bind fun pt =>
      if present (vm.mem pt (tableIndex virt 12)) = true then some (vm.mem pt (tableIndex virt 12))
      else none) : vmmGetPhys vm r virt = (o.map leafAddr).getD 0 := by
  rw [h, vmmGetPhys]
  cases findPt vm r virt with
  | none => rfl
  | some pt =>
    by_cases hp : present (vm.mem pt (tableIndex virt 12)) = true
    · simp only [bind_some, if_pos hp, map_some, getD_some]
    · simp only [bind_some, if_neg hp, map_none, getD_none]

section

variable (hr : IsFrame r) (hlow : (tableIndex virt 39).val < 256)

include hr hlow

theorem findPt_eq_locate :
    findPt vm r virt = locate shape vm.mem 4 (rootWord r)
      [tableIndex virt 39, tableIndex virt 30, tableIndex virt 21] :=
  findPt_eq_locateIn rfl rfl hr (mem_seen.mpr fun _ => hlow) (mem_seen_of_ne (by decide) _)
    (mem_seen_of_ne (by decide) _)

theorem leafAt_pagePath :
    leafAt vm.mem r (pagePath virt) = (findPt vm r virt).bind fun pt =>
      if present (vm.mem pt (tableIndex virt 12)) = true then some (vm.mem pt (tableIndex virt 12))
      else none :=
  find_pagePath rfl rfl hr (mem_seen.mpr fun _ => hlow) (mem_seen_of_ne (by decide) _)
    (mem_seen_of_ne (by decide) _) (mem_seen_of_ne (by decide) _)

theorem vmmGetPhys_eq_leafAt :
    vmmGetPhys vm r virt = ((leafAt vm.mem r (pagePath virt)).map leafAddr).getD 0 :=
  vmmGetPhys_of_entry (leafAt_pagePath hr hlow)

end

/-- A word of a table is changed, as the other spaces see it. -/
theorem leafAt_write_other {k : ℕ} (hr : r ∈ roots)
    (hl : locate shape vm.mem 4 (rootWord r) p = some f) (hd : p.length + k + 1 = 4)
    (hone : treeTables vm.mem roots f ≤ 1) (w : Word) :
    ∀ r' ∈ roots, r' ≠ r → ∀ q, leafAt (vm.write f i w).mem r' q = leafAt vm.mem r' q := by
  have hin := tableCount_pos.mpr ⟨k, below_of_locate hl hd⟩
  obtain ⟨rest, rfl⟩ := exists_cons_of_mem hr
  rw [treeTables_cons] at hone
  intro r' hr' hne
  refine leafAt_congr fun x hx => ?_
  have hrest : r' ∈ rest := (mem_cons.mp hr').resolve_left hne
  refine vm.write_mem_of_ne ?_ i w
  rintro rfl
  obtain ⟨k', hb'⟩ := tableCount_pos.mp hx
  have := treeTables_pos hrest hb'
  omega

/-- A leaf entry is changed. -/
theorem leafAt_write (hr : r ∈ roots) (hl : locate shape vm.mem 4 (rootWord r) p = some f)
    (hlen : p.length = 3) (hone : treeTables vm.mem roots f ≤ 1) (w : Word) :
    leafAt (vm.write f i w).mem r (p ++ [i]) = (if present w = true then some w else none) ∧
      (∀ q, q ≠ p ++ [i] → leafAt (vm.write f i w).mem r q = leafAt vm.mem r q) ∧
      ∀ r' ∈ roots, r' ≠ r → ∀ q, leafAt (vm.write f i w).mem r' q = leafAt vm.mem r' q := by
  have hi := mem_seen_of_ne (d := 0) (by decide) i
  have hroots := leafAt_write_other (i := i) (k := 0) hr hl (by omega) hone w
  have hself : tableCount shape vm.mem 4 (rootWord r) f ≤ 1 := by
    obtain ⟨rest, rfl⟩ := exists_cons_of_mem hr
    rw [treeTables_cons] at hone
    omega
  obtain ⟨hleaf, hothers⟩ := find_leaf hl (by omega) hi hself (vm.write_mem f i w)
  exact ⟨hleaf, hothers, hroots⟩

namespace Forest

/-- The outcome of `vmm_handle_cow_fault`: nothing happens, because the page is not marked
for copying or there is no free page; or the entry maps, writable, the page that it mapped
alone, or a new page with the same contents. -/
inductive Fault (vm : Vm) (roots : Multiset Addr) (r : Addr) (p : List (Fin 512)) :
    Bool → Vm → Prop where
  | refused (h : ∀ e, leafAt vm.mem r p = some e → isCow e = true →
      ∀ x, vm.pmm.Managed x → vm.pmm.used x = true) : Fault vm roots r p false vm
  | owned {e : Word} {vm' : Vm} (hleaf : leafAt vm.mem r p = some e) (hcow : isCow e = true)
      (hcount : vm.pmm.count (leafAddr e) = 1)
      (hself : leafAt vm'.mem r p = some (ownEntry (leafAddr e) e))
      (hpages : ∀ x, treeTables vm.mem roots x = 0 → vm'.mem x = vm.mem x) :
      Fault vm roots r p true vm'
  | copied {e : Word} {x : Addr} {vm' : Vm} (hleaf : leafAt vm.mem r p = some e)
      (hcow : isCow e = true) (hcount : 1 < vm.pmm.count (leafAddr e)) (hfree : vm.pmm.used x = false)
      (hframe : IsFrame x) (hself : leafAt vm'.mem r p = some (ownEntry x e))
      (hpage : vm'.mem x = vm.mem (leafAddr e))
      (hpages : ∀ y, y ≠ x → treeTables vm.mem roots y = 0 → vm'.mem y = vm.mem y) :
      Fault vm roots r p true vm'

section

variable (h : Forest vm roots loose lost held)

include h

section Leaf

variable {pt : Addr} {e : Word} (hr : r ∈ roots)
  (hl : locate shape vm.mem 4 (rootWord r) p = some pt) (hlen : p.length = 3)
  (he : vm.mem pt i = e) (hp : present e = true) (hw : present w = true)

include hr hl hlen he hp hw

omit h hr hl hlen he hp hw in
theorem tableCount_zero (mem : Addr → Page) (e : Word) (x : Addr) : tableCount shape mem 0 e x = 0 :=
  ite_self 0

/-- A present leaf entry is exchanged for another. -/
theorem counts_write :
    treeTables (vm.write pt i w).mem roots = treeTables vm.mem roots ∧
      (∀ x, treeLeaves (vm.write pt i w).mem roots x + (if leafAddr e = x then 1 else 0) =
        treeLeaves vm.mem roots x + if leafAddr w = x then 1 else 0) ∧
      ∀ r' ∈ roots, ∀ x, rootLeaves (vm.write pt i w).mem r' x = rootLeaves vm.mem r' x ∨
        rootLeaves (vm.write pt i w).mem r' x + (if leafAddr e = x then 1 else 0) =
          rootLeaves vm.mem r' x + if leafAddr w = x then 1 else 0 := by
  subst he
  have hd : p.length + 0 + 1 = 4 := by omega
  have hi : i ∈ shape.seen 0 := mem_seen_of_ne (by decide) i
  have hone := (h.table_one (treeTables_pos hr (below_of_locate (k := 0) hl hd))).1.le
  have hleaf (mem : Addr → Page) (e : Word) (he : present e = true) (x : Addr) :
      leafCount shape mem 0 e x = if leafAddr e = x then 1 else 0 := weight_zero_live he
  refine ⟨funext fun x => ?_, fun x => ?_, fun r' hr' x => ?_⟩
  · have hsum := (trees_write (w := w) hr hl hd hi hone x).1
    rwa [tableCount_zero, tableCount_zero] at hsum
  · have hsum := (trees_write (w := w) hr hl hd hi hone x).2
    rw [hleaf _ _ hp, hleaf _ _ hw] at hsum
    exact hsum
  · have hsum := rootLeaves_write (w := w) hr hl hd hi hone hr' x
    rw [hleaf _ _ hp, hleaf _ _ hw] at hsum
    exact hsum

/-- The entry maps the same page as before. -/
theorem rewrite_leaf (hsame : leafAddr w = leafAddr e) :
    Forest (vm.write pt i w) roots loose lost held := by
  obtain ⟨htables, hleaves, hroots⟩ := h.counts_write hr hl hlen he hp hw
  refine ⟨?_, h.roots_frame, fun r' hr' x => ?_⟩
  · refine h.accounts.congr (fun x => by rw [htables]) fun x => ?_
    have hsum := hleaves x
    rw [hsame] at hsum
    omega
  · have hsum := hroots r' hr' x
    have hslim := h.slim r' hr' x
    rw [hsame] at hsum
    omega

/-- The entry maps a new page, and the one that it mapped before has a reference less. -/
theorem replace_leaf {vm1 : Vm} (ht : vm.pmm.Taken (leafAddr w) vm1.pmm)
    (hmem : ∀ y, vm.pmm.InUse y → vm1.mem y = vm.mem y) (hmany : 1 < vm.pmm.count (leafAddr e)) :
    Forest ((vm1.freePage (leafAddr e)).write pt i w) roots loose lost held := by
  have h1 := h.take ht hmem
  have hpt : vm.pmm.InUse pt :=
    h.managed_table (treeTables_pos hr (below_of_locate (k := 0) hl (by omega)))
  have hword := hmem pt hpt
  have hl1 : locate shape vm1.mem 4 (rootWord r) p = some pt := by
    rw [← hl]
    exact locate_congr (fun x k hb => hmem x (h.managed_table (treeTables_pos hr hb))) p
  obtain ⟨htables, hleaves, hroots⟩ := h1.counts_write hr hl1 hlen (by rw [hword, he]) hp hw
  have hfind : leafAt vm.mem r (p ++ [i]) = some e := by
    rw [leafAt, find_of_locate (k := 0) hl (by omega) (mem_seen_of_ne (by decide) i), he]
    simp [find, hp]
  have hold : 0 < treeLeaves vm.mem roots (leafAddr e) := treeLeaves_pos hr hfind
  obtain ⟨hm, hu, -⟩ := h.accounts.owned (leafAddr e) (by omega)
  have hcount : vm1.pmm.count (leafAddr e) = vm.pmm.count (leafAddr e) :=
    ht.count _ hm (ht.ne ⟨hm, hu⟩)
  have hacc : Accounts vm1.pmm (fun x => loose.count x + treeTables vm1.mem roots x)
      (fun x => treeLeaves vm1.mem roots x + if leafAddr w = x then 1 else 0) lost held := by
    refine h1.accounts.move (fun x => ?_) fun x => rfl
    rw [count_cons]
    simp only [eq_comm (a := x)]
    omega
  have hused := hacc.owned (leafAddr e) (by
    have := hleaves (leafAddr e)
    rw [if_pos rfl] at this
    omega)
  refine ⟨?_, h.roots_frame, fun r' hr' x => ?_⟩
  · show Accounts ([leafAddr e].foldl pmmFreePage vm1.pmm)
      (fun x => loose.count x + treeTables (vm1.write pt i w).mem roots x)
      (treeLeaves (vm1.write pt i w).mem roots) lost held
    rw [htables]
    refine hacc.freeAll (fun x => ?_) (fun x => le_refl _) fun x hx => ?_
    · have := hleaves x
      rw [List.count_singleton]
      simp only [beq_iff_eq]
      omega
    · obtain rfl := List.mem_singleton.mp hx
      have := hleaves (leafAddr e)
      rw [if_pos rfl] at this
      rw [List.count_singleton_self, hcount]
      omega
  · show rootLeaves (vm1.write pt i w).mem r' x ≤ 1
    have hsum := hroots r' hr' x
    have hslim := h1.slim r' hr' x
    by_cases hx : leafAddr w = x
    · have hle : rootLeaves vm1.mem r' x ≤ treeLeaves vm1.mem roots x := rootLeaves_le hr' x
      have hnew := h1.loose_one (mem_cons_self (leafAddr w) loose)
      rw [hx] at hnew
      rw [if_pos hx] at hsum
      omega
    · rw [if_neg hx] at hsum
      omega

end Leaf

theorem handleCowFault (hr : r ∈ roots) (hlow : (tableIndex virt 39).val < 256)
    (hrun : vmmHandleCowFault r virt vm = (ok, vm')) :
    Fault vm roots r (pagePath virt) ok vm' ∧ Forest vm' roots loose lost held ∧
      (∀ q, q ≠ pagePath virt → leafAt vm'.mem r q = leafAt vm.mem r q) ∧
      ∀ r' ∈ roots, r' ≠ r → ∀ q, leafAt vm'.mem r' q = leafAt vm.mem r' q := by
  have hframe := h.roots_frame r hr
  have hwalk : leafAt vm.mem r (pagePath virt) = _ := leafAt_pagePath hframe hlow
  have hrefuse (hno : ∀ e, leafAt vm.mem r (pagePath virt) = some e → isCow e = true →
      ∀ x, vm.pmm.Managed x → vm.pmm.used x = true) :
      Fault vm roots r (pagePath virt) false vm ∧ Forest vm roots loose lost held ∧
        (∀ q, q ≠ pagePath virt → leafAt vm.mem r q = leafAt vm.mem r q) ∧
        ∀ r' ∈ roots, r' ≠ r → ∀ q, leafAt vm.mem r' q = leafAt vm.mem r' q :=
    ⟨.refused hno, h, fun _ _ => rfl, fun _ _ _ _ => rfl⟩
  unfold vmmHandleCowFault at hrun
  cases hpt : findPt vm r virt with
  | none =>
    rw [hpt] at hrun hwalk
    cases hrun
    refine hrefuse fun e he => ?_
    rw [hwalk] at he
    cases he
  | some pt =>
    rw [hpt] at hrun hwalk
    dsimp only at hrun
    rw [bind_some] at hwalk
    generalize he : vm.mem pt (tableIndex virt 12) = e at *
    by_cases hno : present e = false ∨ isCow e = false
    · rw [if_pos hno] at hrun
      cases hrun
      refine hrefuse fun e' he' hcow => ?_
      rw [hwalk] at he'
      split at he'
      · next hp =>
        cases he'
        rw [hp, hcow] at hno
        simp at hno
      · cases he'
    · rw [if_neg hno] at hrun
      obtain ⟨hp, hcow⟩ : present e = true ∧ isCow e = true := by
        simpa using hno
      rw [if_pos hp] at hwalk
      rw [findPt_eq_locate hframe hlow] at hpt
      have hpos := treeLeaves_pos hr hwalk
      obtain ⟨hm, hu, hcpos, -⟩ := h.accounts.owned (leafAddr e) (by omega)
      have hold : IsFrame (leafAddr e) := isFrame_leafAddr _
      have htpos := treeTables_pos hr (below_of_locate (k := 0) hpt rfl)
      have honce := (h.table_one htpos).1.le
      rw [Pmm.pmmGetRefcount_eq hm] at hrun
      by_cases hone : vm.pmm.count (leafAddr e) = 1
      · rw [if_pos hone] at hrun
        cases hrun
        have hw : present (ownEntry (leafAddr e) e) = true := by
          rw [present_ownEntry hold, hp]
        obtain ⟨hself, hothers, hroots⟩ := leafAt_write (i := tableIndex virt 12) hr hpt rfl honce
          (ownEntry (leafAddr e) e)
        rw [if_pos hw] at hself
        refine ⟨.owned hwalk hcow hone hself fun x hx => vm.write_mem_of_ne ?_ _ _,
          h.rewrite_leaf hr hpt rfl he hp hw (leafAddr_ownEntry hold _), hothers, hroots⟩
        rintro rfl
        omega
      · rw [if_neg hone] at hrun
        rcases halloc : vm.allocPage with ⟨x, vm1⟩
        rw [halloc] at hrun
        rcases allocPage_spec h.ok halloc with ⟨rfl, rfl, hfull⟩ | ⟨hx, hmem, ht⟩
        · rw [if_pos rfl] at hrun
          cases hrun
          exact hrefuse fun _ _ _ => hfull
        · rw [if_neg hx] at hrun
          cases hrun
          have hxf : IsFrame x := ht.managed.isFrame h.ok
          have hw : present (ownEntry x e) = true := by
            rw [present_ownEntry hxf, hp]
          have hnew : leafAddr (ownEntry x e) = x := leafAddr_ownEntry hxf _
          have hcopy (y : Addr) (hy : vm.pmm.InUse y) :
              (vm1.setPage x (vm1.mem (leafAddr e))).mem y = vm.mem y := by
            rw [Vm.setPage_mem_of_ne _ (ht.ne hy), hmem]
          generalize hvm2 : vm1.setPage x (vm1.mem (leafAddr e)) = vm2 at *
          have hpmm : vm2.pmm = vm1.pmm := by rw [← hvm2, Vm.setPage_pmm]
          have hforest := h.replace_leaf hr hpt rfl he hp hw (by rw [hnew, hpmm]; exact ht)
            hcopy (by omega)
          -- the tables are as before when the entry is written
          have htable (y : Addr) (hy : 0 < treeTables vm.mem roots y) : vm2.mem y = vm.mem y :=
            hcopy y (h.managed_table hy)
          have hspace (r' : Addr) (hr' : r' ∈ roots) (q : List (Fin 512)) :
              leafAt vm2.mem r' q = leafAt vm.mem r' q :=
            find_congr (fun y k hb => htable y (treeTables_pos hr' hb)) q
          have hpt2 : locate shape vm2.mem 4 (rootWord r)
              [tableIndex virt 39, tableIndex virt 30, tableIndex virt 21] = some pt := by
            rw [← hpt]
            exact locate_congr (fun y k hb => htable y (treeTables_pos hr hb)) _
          have honce2 : treeTables (vm2.freePage (leafAddr e)).mem roots pt ≤ 1 := by
            rw [Vm.freePage_mem, (trees_congr htable).1]
            exact honce
          obtain ⟨hself, hothers, hroots⟩ :=
            leafAt_write (i := tableIndex virt 12) hr hpt2 rfl honce2 (ownEntry x e)
          rw [if_pos hw] at hself
          have hptx : pt ≠ x := ht.ne (h.managed_table htpos)
          refine ⟨.copied hwalk hcow (by omega) ht.free hxf hself ?_ fun y hy hzero => ?_, hforest,
            fun q hq => (hothers q hq).trans (hspace r hr q),
            fun r' hr' hne q => (hroots r' hr' hne q).trans (hspace r' hr' q)⟩
          · rw [Vm.write_mem_of_ne _ hptx.symm, Vm.freePage_mem, ← hvm2, Vm.setPage_mem_self, hmem]
          · have hyp : y ≠ pt := by
              rintro rfl
              omega
            rw [Vm.write_mem_of_ne _ hyp, Vm.freePage_mem, ← hvm2, Vm.setPage_mem_of_ne _ hy, hmem]

end

end Forest

end Entries

end Crius.Mm
