import Crius.Mm.MapPage
import Crius.Mm.PmmSystem

/-!
# Small address spaces

When only the first word of each table is present and the allocator has enough clear bits,
forks succeed. `onePage` is a space with a single user page at address 0, made by the calls
of the kernel on an empty memory.
-/
namespace Crius.Mm

open Lib Function List Pmm Nat

variable {vm vm' : Vm} {m q : ℕ} {x : Addr} {p : Pmm} {copyTable : Addr → Addr → Vm → Bool × Vm}
  {is : List (Fin 512)} {flags : Word}

/-- No table has a present word except its first. -/
def Sparse (vm : Vm) : Prop := ∀ x i, i ≠ 0 → present (vm.mem x i) = false

/-- At least `m` pages are free. -/
def Room (m : ℕ) (vm : Vm) : Prop := vm.pmm.lastScan ≤ maxPages ∧ m ≤ vm.pmm.clearBits

namespace Sparse

theorem zero_of_present {i : Fin 512} (h : Sparse vm) (hp : present (vm.mem x i) = true) :
    i = 0 := by
  by_contra hi
  rw [h x i hi] at hp
  cases hp

theorem write {t : Addr} {w : Word} (h : Sparse vm) : Sparse (vm.write t 0 w) := by
  intro x i hi
  by_cases hx : x = t
  · rw [hx, Vm.write_mem_self, update_of_ne hi]
    exact h t i hi
  · rw [Vm.write_mem_of_ne _ hx]
    exact h x i hi

theorem congr (h : Sparse vm) (hmem : vm'.mem = vm.mem) : Sparse vm' := by
  intro x i hi
  rw [hmem]
  exact h x i hi

theorem blank {t : Addr} (h : Sparse vm) (hmem : vm'.mem = update vm.mem t fun _ => 0) :
    Sparse vm' := by
  intro x i hi
  rw [hmem]
  by_cases hx : x = t
  · rw [hx, update_self]
    rfl
  · rw [update_of_ne hx]
    exact h x i hi

end Sparse

/-! ## Allocation -/

theorem clearBits_eq_zero (h : ∀ i < maxPages, p.bitmap i = true) : p.clearBits = 0 := by
  rw [clearBits, Finset.card_eq_zero, Finset.filter_eq_empty_iff]
  intro i hi
  rw [h i (Finset.mem_range.mp hi)]
  decide

/-- With a clear bit, the allocator finds a page. -/
theorem allocPage_room (h : Room (m + 1) vm) (hrun : vm.allocPage = (x, vm')) :
    Room m vm' ∧ vm'.mem = vm.mem := by
  have hbits := h.2
  cases hscan : vm.pmm.scan with
  | none =>
    have := clearBits_eq_zero fun i => scan_eq_none hscan
    omega
  | some i =>
    obtain ⟨hi, hbit⟩ := scan_eq_some h.1 hscan
    have hclear : (vm.pmm.take i).clearBits + 1 = vm.pmm.clearBits := clearBits_set hi hbit rfl
    rw [Vm.allocPage, pmmAllocPage, hscan] at hrun
    cases hrun
    exact ⟨⟨hi, by dsimp only; omega⟩, rfl⟩

theorem allocPageTable_room (ok : vm.pmm.Ok) (h : Room (m + 1) vm) :
    ∃ t vm', allocPageTable vm = (some t, vm') ∧ Room m vm' ∧ vm'.pmm.Ok ∧
      vm'.mem = update vm.mem t fun _ => 0 := by
  rcases hrun : allocPageTable vm with ⟨t, vm1⟩
  rcases allocPageTable_spec ok hrun with ⟨rfl, rfl, hfull⟩ | ⟨t, rfl, ht, hmem⟩
  · have hzero := clearBits_eq_zero (p := vm1.pmm) fun i hi => by
      have hused := hfull _ ⟨i, hi, rfl⟩
      rw [used, index_address hi] at hused
      exact hused
    have := h.2
    omega
  · refine ⟨t, vm1, rfl, ?_, ht.ok, hmem⟩
    unfold allocPageTable at hrun
    rcases hcall : vm.allocPage with ⟨x, vm2⟩
    obtain ⟨hroom, -⟩ := allocPage_room h hcall
    rw [hcall] at hrun
    dsimp only at hrun
    split at hrun
    · cases (Prod.mk.inj hrun).1
    · cases hrun
      exact hroom

/-! ## Copying -/

theorem Room.congr (h : Room m vm) (hscan : vm'.pmm.lastScan = vm.pmm.lastScan)
    (hmap : vm'.pmm.bitmap = vm.pmm.bitmap) : Room m vm' := by
  refine ⟨hscan ▸ h.1, ?_⟩
  rw [clearBits, hmap]
  exact h.2

theorem pmmIncref_keeps (ok : p.Ok) (x : Addr) : (pmmIncref p x).Ok ∧
    (pmmIncref p x).lastScan = p.lastScan ∧ (pmmIncref p x).bitmap = p.bitmap := by
  unfold pmmIncref
  dsimp only
  split
  · exact ⟨ok, rfl, rfl⟩
  · split
    · next hroom =>
      exact ⟨⟨ok.base_pos, ok.base_aligned, ok.base_bound, ok.scan_le,
        refs_update_le ok (by omega) _⟩, rfl, rfl⟩
    · exact ⟨ok, rfl, rfl⟩

/-- A copy of a table that succeeds with `q` new pages. -/
def CopiesSparse (q : ℕ) (copyTable : Addr → Addr → Vm → Bool × Vm) : Prop :=
  ∀ m dst src vm, vm.pmm.Ok → Sparse vm → Room (m + q) vm →
    ∃ vm', copyTable dst src vm = (true, vm') ∧ vm'.pmm.Ok ∧ Sparse vm' ∧ Room m vm'

theorem copiesSparse_copyPt : CopiesSparse 0 copyPt := by
  intro m dst src vm ok hsparse hroom
  refine ⟨_, rfl, ?_⟩
  generalize finRange 512 = is
  induction is generalizing vm with
  | nil => exact ⟨ok, hsparse, hroom⟩
  | cons i is ih =>
    rw [foldl_cons]
    unfold copyPte
    by_cases hp : present (vm.mem src i) = true
    · obtain rfl := hsparse.zero_of_present hp
      obtain ⟨hok, hscan, hmap⟩ := pmmIncref_keeps ok (leafAddr (vm.mem src 0))
      rw [if_pos hp]
      refine ih _ hok ?_ (hroom.congr hscan hmap)
      exact (hsparse.write.write).congr rfl
    · dsimp only
      rw [if_neg hp]
      exact ih vm ok hsparse hroom

theorem copyEntries_absent {dst src : Addr} (h : ∀ i ∈ is, present (vm.mem src i) = false) :
    copyEntries copyTable dst src is vm = (true, vm) := by
  induction is with
  | nil => rfl
  | cons i is ih =>
    rw [copyEntries, h i mem_cons_self, if_neg Bool.false_ne_true]
    exact ih fun j hj => h j (mem_cons_of_mem i hj)

theorem copyEntries_sparse (hcopy : CopiesSparse q copyTable) (hnodup : is.Nodup) :
    CopiesSparse (q + 1) fun dst src => copyEntries copyTable dst src is := by
  intro m dst src vm ok hsparse hroom
  have hdone : ∃ vm', (true, vm) = (true, vm') ∧ vm'.pmm.Ok ∧ Sparse vm' ∧ Room m vm' :=
    ⟨vm, rfl, ok, hsparse, hroom.1, le_trans (by omega) hroom.2⟩
  induction is with
  | nil => exact hdone
  | cons i is ih =>
    obtain ⟨hi, hnodup⟩ := nodup_cons.mp hnodup
    dsimp only
    rw [copyEntries]
    by_cases hp : present (vm.mem src i) = true
    · obtain rfl := hsparse.zero_of_present hp
      obtain ⟨t, vm1, halloc, hroom1, ok1, hmem1⟩ := allocPageTable_room ok hroom
      obtain ⟨vm2, htable, ok2, hsparse2, hroom2⟩ :=
        hcopy m t (tableAddr (vm1.mem src 0)) vm1 ok1 (hsparse.blank hmem1) hroom1
      rw [if_pos hp, halloc]
      dsimp only
      rw [htable]
      have hrest : ∀ j ∈ is, present ((vm2.write dst 0 (linkEntry t (vm2.mem src 0))).mem src j) =
          false := fun j hj => hsparse2.write src j fun hj0 => hi (hj0 ▸ hj)
      rw [if_pos rfl, copyEntries_absent hrest]
      exact ⟨_, rfl, ok2, hsparse2.write, hroom2⟩
    · rw [if_neg hp]
      exact ih hnodup

theorem copiesSparse_vmmCopyUserspace : CopiesSparse 3 vmmCopyUserspace :=
  copyEntries_sparse (copyEntries_sparse (copyEntries_sparse copiesSparse_copyPt
    (nodup_finRange 512)) (nodup_finRange 512)) ((nodup_finRange 512).filter _)

/-- A fork of a small space succeeds. -/
theorem forkSpace_sparse (root : Addr) (ok : vm.pmm.Ok) (h : Sparse vm) (hroom : Room (m + 4) vm) :
    ∃ child vm', forkSpace root vm = (some child, vm') ∧ Sparse vm' ∧ Room m vm' := by
  obtain ⟨t, vm1, halloc, hroom1, ok1, hmem1⟩ := allocPageTable_room (m := m + 3) ok hroom
  have hnz : t ≠ 0 := by
    rcases allocPageTable_spec ok halloc with ⟨hnone, -⟩ | ⟨x, hx, ht, -⟩
    · cases hnone
    · cases hx
      exact ht.managed.ne_zero ok
  have hsparse1 := h.blank hmem1
  have hkernel : vmmMapKernel root t vm1 = vm1 := by
    have hupper : ∀ i ∈ upperHalf, i ≠ 0 := by
      intro i hi h0
      rw [h0] at hi
      simp [upperHalf] at hi
    unfold vmmMapKernel
    generalize upperHalf = is at *
    induction is with
    | nil => rfl
    | cons i is ih =>
      rw [foldl_cons, hsparse1 root i (hupper i mem_cons_self), if_neg Bool.false_ne_true]
      exact ih fun j hj => hupper j (mem_cons_of_mem i hj)
  obtain ⟨vm2, hrun, -, hsparse2, hroom2⟩ :=
    copiesSparse_vmmCopyUserspace m t root vm1 ok1 hsparse1 hroom1
  refine ⟨t, vm2, ?_, hsparse2, hroom2⟩
  rw [forkSpace, vmmCreatePml4, halloc]
  dsimp only
  rw [if_neg hnz, hkernel, hrun]

/-! ## A space with one page -/

/-- All pages above 1 MiB are free. -/
def emptyVm : Vm where
  pmm := { pagesBase := 0x100000, bitmap := fun _ => false, pageRefs := fun _ => 0,
           pagesFree := maxPages, lastScan := 0 }
  mem := fun _ _ => 0

theorem forest_emptyVm : Forest emptyVm 0 0 (fun _ => 0) fun _ => False := by
  refine forest_empty ⟨by decide, by decide, by decide, by decide, fun _ => zero_le _⟩ fun x => ?_
  simp [InUse, used, emptyVm]

/-- A new space, and a page for it. -/
def bareVm : Vm := ((vmmCreatePml4 emptyVm).2.allocPage).2

/-- The page is mapped at address 0. -/
def onePage (flags : Word) : Vm := (vmmMapPage 0x100000 0 0x101000 flags bareVm).2

theorem room_emptyVm : Room maxPages emptyVm := by
  refine ⟨zero_le _, ?_⟩
  have hall : ∀ i ∈ Finset.range maxPages, emptyVm.pmm.bitmap i = false := fun _ _ => rfl
  rw [clearBits, Finset.filter_true_of_mem hall, Finset.card_range]

theorem nextTable_sparse {table : Addr} {res : Option Addr} (ok : vm.pmm.Ok) (h : Sparse vm)
    (hroom : Room (m + 1) vm) (hrun : nextTable table 0 flags vm = (res, vm')) :
    vm'.pmm.Ok ∧ Sparse vm' ∧ Room m vm' := by
  unfold nextTable at hrun
  split at hrun
  · cases hrun
    exact ⟨ok, h, hroom.1, le_of_succ_le hroom.2⟩
  · obtain ⟨t, vm1, halloc, hroom1, ok1, hmem1⟩ := allocPageTable_room ok hroom
    rw [halloc] at hrun
    cases hrun
    exact ⟨ok1, (h.blank hmem1).write, hroom1⟩

theorem vmmMapPage_sparse {root phys : Addr} {done : Bool} (ok : vm.pmm.Ok) (h : Sparse vm)
    (hroom : Room (m + 3) vm) (hrun : vmmMapPage root 0 phys flags vm = (done, vm')) :
    Sparse vm' ∧ Room m vm' := by
  have hindex (k : ℕ) : tableIndex 0 k = 0 := by
    simp [tableIndex]
  have hroom' {d : ℕ} {vm1 : Vm} (hd : Room (m + d) vm1) : Room m vm1 :=
    ⟨hd.1, le_trans (le_add_right m d) hd.2⟩
  rcases vmmMapPage_walk
    (P := fun p _ vm1 => vm1.pmm.Ok ∧ Sparse vm1 ∧ ∃ d, p.length + d = 3 ∧ Room (m + d) vm1)
    (F := fun vm1 => Sparse vm1 ∧ Room m vm1) ⟨ok, h, 3, rfl, hroom⟩
    (fun k p s table vm1 res vm2 hd _ hat hnext => by
      obtain ⟨ok1, h1, d, hlen, hroom1⟩ := hat
      obtain rfl : d = k + 1 := by omega
      rw [hindex] at hnext
      obtain ⟨ok2, h2, hroom2⟩ := nextTable_sparse (m := m + k) ok1 h1 hroom1 hnext
      cases res with
      | none => exact ⟨h2, hroom' hroom2⟩
      | some next =>
        refine ⟨ok2, h2, k, ?_, hroom2⟩
        rw [length_append, length_singleton]
        omega) hrun
    with ⟨-, hfail⟩ | ⟨pt, vm1, ⟨-, h1, d, -, hroom1⟩, ⟨-, -, rfl⟩ | ⟨-, -, rfl⟩⟩
  · exact hfail
  · exact ⟨h1, hroom' hroom1⟩
  · rw [hindex]
    exact ⟨h1.write, hroom' hroom1⟩

/-- A new space with one page at address 0. The other spaces stay as they are. -/
theorem newSpace_spec {vm₁ vm₂ : Vm} {roots : Multiset Addr} {lost : Addr → ℕ} {held : Addr → Prop}
    {r : Addr} (h : Forest vm roots 0 lost held) (hsparse : Sparse vm) (hroom : Room (m + 5) vm)
    (hflags : present flags = true) (hclean : leafAddr flags = 0)
    (hcreate : vmmCreatePml4 vm = (r, vm₁)) (hr : r ≠ 0) (halloc : vm₁.allocPage = (x, vm₂))
    (hx : x ≠ 0) (hmap : vmmMapPage r 0 x flags vm₂ = (true, vm')) :
    Forest vm' (r ::ₘ roots) 0 lost held ∧ Sparse vm' ∧ Room m vm' ∧
      leafAt vm'.mem r (pagePath 0) = some (mapEntry x flags) ∧
      (∀ p, p ≠ pagePath 0 → leafAt vm'.mem r p = none) ∧
      ∀ r' ∈ roots, ∀ p, leafAt vm'.mem r' p = leafAt vm.mem r' p := by
  obtain ⟨-, ht, hmem₁, hbare, h₁⟩ := (h.createPml4 hcreate).resolve_left fun hzero => hr hzero.1
  obtain ⟨-, hmem₂, htake⟩ := (allocPage_spec h₁.ok halloc).resolve_left fun hzero => hx hzero.1
  have hroom₁ : Room (m + 4) vm₁ := by
    obtain ⟨t, vm₀, htable, hroom₀, -⟩ := allocPageTable_room (m := m + 4) h.ok hroom
    rw [vmmCreatePml4, htable] at hcreate
    rwa [← (Prod.mk.inj hcreate).2]
  have hroom₂ := (allocPage_room (m := m + 3) hroom₁ halloc).1
  have h₂ := h₁.take htake fun y _ => by rw [hmem₂]
  obtain ⟨hsparse', hroom'⟩ :=
    vmmMapPage_sparse (m := m) h₂.ok ((hsparse.blank hmem₁).congr hmem₂) hroom₂ hmap
  have hroot := Multiset.mem_cons_self r roots
  rcases h₂.mapPage hroot (by decide) hflags hclean hmap with
    ⟨hfalse, -⟩ | ⟨-, h₃, -, hself, hothers, -⟩
  · cases hfalse
  refine ⟨h₃, hsparse', hroom', hself, fun p hp => ?_, fun r' hr' p => ?_⟩
  · rw [hothers r hroot p (.inr hp), hmem₂]
    exact leafAt_of_bare (h₁.roots_frame r hroot) hbare p
  · rw [hothers r' (Multiset.mem_cons_of_mem hr') p
      (.inl (ht.ne (h.managed_table (h.root_pos hr')))),
      hmem₂]
    refine leafAt_of_tables hr' (fun y hy => ?_) p
    rw [hmem₁, update_of_ne (ht.ne (h.managed_table hy))]

theorem onePage_spec (hflags : present flags = true) (hclean : leafAddr flags = 0)
    (hdone : (vmmMapPage 0x100000 0 0x101000 flags bareVm).1 = true) :
    Forest (onePage flags) {0x100000} 0 (fun _ => 0) (fun _ => False) ∧ Sparse (onePage flags) ∧
      Room (maxPages - 5) (onePage flags) ∧
      leafAt (onePage flags).mem 0x100000 (pagePath 0) = some (mapEntry 0x101000 flags) ∧
      ∀ p, p ≠ pagePath 0 → leafAt (onePage flags).mem 0x100000 p = none := by
  have hsparse : Sparse emptyVm := fun _ _ _ => show present 0 = false by decide
  have hcreate : vmmCreatePml4 emptyVm = (0x100000, (vmmCreatePml4 emptyVm).2) :=
    Prod.ext (by decide) rfl
  have halloc : (vmmCreatePml4 emptyVm).2.allocPage = (0x101000, bareVm) :=
    Prod.ext (by decide) rfl
  have hmap : vmmMapPage 0x100000 0 0x101000 flags bareVm = (true, onePage flags) :=
    Prod.ext hdone rfl
  obtain ⟨h, hsparse', hroom, hself, hothers, -⟩ := newSpace_spec (m := maxPages - 5) forest_emptyVm
    hsparse room_emptyVm hflags hclean hcreate (by decide) halloc (by decide) hmap
  exact ⟨h, hsparse', hroom, hself, hothers⟩

/-! ## Faults -/

theorem pmmFreePage_room (hscan : p.lastScan ≤ maxPages) (x : Addr) :
    (pmmFreePage p x).lastScan ≤ maxPages ∧ p.clearBits ≤ (pmmFreePage p x).clearBits := by
  unfold pmmFreePage
  dsimp only
  split
  · exact ⟨hscan, le_refl _⟩
  · next hidx =>
    split
    · exact ⟨hscan, le_refl _⟩
    · next hbit =>
      split
      · exact ⟨hscan, le_refl _⟩
      · have hclear : (p.drop (p.index x)).clearBits = p.clearBits + 1 :=
          clearBits_clear (by omega) (by simpa using hbit) rfl
        refine ⟨?_, by omega⟩
        simp only [Pmm.drop]
        split <;> omega

/-- A fault takes at most one page. -/
theorem vmmHandleCowFault_room {r virt : Addr} {ok : Bool} (h : Room (m + 1) vm)
    (hrun : vmmHandleCowFault r virt vm = (ok, vm')) : Room m vm' := by
  have hless : Room m vm := ⟨h.1, le_of_succ_le h.2⟩
  unfold vmmHandleCowFault at hrun
  cases hpt : findPt vm r virt with
  | none =>
    rw [hpt] at hrun
    cases hrun
    exact hless
  | some pt =>
    rw [hpt] at hrun
    dsimp only at hrun
    split at hrun
    · cases hrun
      exact hless
    · split at hrun
      · cases hrun
        exact hless
      · rcases halloc : vm.allocPage with ⟨x, vm1⟩
        rw [halloc] at hrun
        obtain ⟨hroom, -⟩ := allocPage_room h halloc
        split at hrun
        · cases hrun
          exact hroom
        · cases hrun
          obtain ⟨hscan, hclear⟩ := pmmFreePage_room hroom.1 (leafAddr (vm.mem pt (tableIndex virt 12)))
          exact ⟨hscan, le_trans hroom.2 hclear⟩

/-- A free page can be found. -/
theorem Room.exists_free (h : Room (m + 1) vm) : ∃ x, vm.pmm.Managed x ∧ vm.pmm.used x = false := by
  by_contra hnone
  have hzero := clearBits_eq_zero (p := vm.pmm) fun i hi => by
    by_contra hbit
    refine hnone ⟨vm.pmm.address i, ⟨i, hi, rfl⟩, ?_⟩
    rw [used, index_address hi]
    exact Bool.eq_false_of_not_eq_true hbit
  have := h.2
  omega

end Crius.Mm
