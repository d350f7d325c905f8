import Crius.Mm.CowSystem
import Crius.Process.ElfLoaded

/-!
# Copy-on-write and eager copies

Address spaces that share pages after a fork, and copy them when one of the spaces stores to
them, against spaces with pages of their own, where a fork copies every page. `Refines` relates
the two: the user of a space sees the same bytes, and a page that an entry maps writable is
mapped by no other entry. Forks, stores with the faults that they cause, and frees keep it, as
long as `page_refs[]` counts every entry.
-/
namespace Crius.Process.ForkMemory

open Lib Run Mm Elf Function Multiset Option List

/-! ## Shared pages -/

/-- The address spaces, by their PML4s. -/
structure Memory where
  vm : Vm
  spaces : List Addr

/-- What user programs do to memory, and the end of a space. -/
inductive Op where
  | fork (i : ℕ)
  | write (i : ℕ) (virt : Addr) (b : Byte)
  | free (i : ℕ)

/-- The page after a store of one byte. -/
def storeByte (page : Page) (virt : Addr) (b : Byte) : Page :=
  copyIn page (virt.toNat % 4096) 1 fun _ => b

/-- A store that the entry of the page allows. -/
def store (cr3 virt : Addr) (b : Byte) (vm : Vm) : Option Vm := do
  let e ← leafWord vm cr3 virt
  if writable e = true then
    some (vm.setPage (leafAddr e) (storeByte (vm.mem (leafAddr e)) virt b))
  else none

/-- A store of a user program. If the entry does not allow it, `page_fault_handler` leaves the
page to `vmm_handle_cow_fault` and the instruction runs again, or the program is killed. -/
def userWrite (cr3 virt : Addr) (b : Byte) (vm : Vm) : Option Vm :=
  match store cr3 virt b vm with
  | some vm => some vm
  | none =>
    match vmmHandleCowFault cr3 (virt &&& ~~~0xFFF) vm with
    | (true, vm) => store cr3 virt b vm
    | (false, _) => none

def step (s : Memory) : Op → Option Memory
  | .fork i => do
    let parent ← s.spaces[i]?
    match forkSpace parent s.vm with
    | (some child, vm) => some ⟨vm, s.spaces ++ [child]⟩
    -- a page could not be allocated
    | (none, _) => none
  | .write i virt b => do
    let cr3 ← s.spaces[i]?
    if (tableIndex virt 39).val < 256 then
      let vm ← userWrite cr3 virt b s.vm
      some ⟨vm, s.spaces⟩
    else none
  | .free i => do
    let cr3 ← s.spaces[i]?
    some ⟨vmmFreeUserPages cr3 s.vm, s.spaces⟩

/-! ## Pages of their own -/

/-- A page of a space that shares nothing, and whether it is mapped writable. -/
structure OwnPage where
  page : Page
  mayWrite : Bool

abbrev OwnSpace := List (Fin 512) → Option OwnPage

/-- A fork copies every page. -/
def eagerStep (t : List OwnSpace) : Op → Option (List OwnSpace)
  | .fork i => do
    let parent ← t[i]?
    some (t ++ [parent])
  | .write i virt b => do
    let space ← t[i]?
    let own ← space (pagePath virt)
    if own.mayWrite = true then
      some (t.set i (Function.update space (pagePath virt)
        (some { own with page := storeByte own.page virt b })))
    else none
  | .free i => do
    let _ ← t[i]?
    some (t.set i fun _ => none)

def OwnSpace.byteAt (space : OwnSpace) (virt : Addr) : Option Byte :=
  (space (pagePath virt)).map fun own => pageByte own.page (virt.toNat % 4096)

/-- The pages of a space, as pages of its own. -/
def ownSpace (vm : Vm) (cr3 : Addr) : OwnSpace := fun p =>
  (leafAt vm.mem cr3 p).map fun e => ⟨vm.mem (leafAddr e), writable e⟩

/-- The counts are exact, and no page is mapped twice. -/
structure Unshared (s : Memory) : Prop where
  forest : ∃ held, Forest s.vm ↑s.spaces 0 (fun _ => 0) held
  once : ∀ x, treeLeaves s.vm.mem ↑s.spaces x ≤ 1

/-- `page_refs[]` can count one more entry for every page. -/
def CountsFit (s : Memory) : Op → Prop
  | .fork _ => ∀ x, treeLeaves s.vm.mem ↑s.spaces x < 255
  | _ => True

/-! ## The relation -/

/-- An entry maps a page with the contents of `own`, and can be made writable if `own` is. -/
structure Shows (vm : Vm) (e : Word) (own : OwnPage) : Prop where
  page : own.page = vm.mem (leafAddr e)
  mayWrite : own.mayWrite = true → writable e = true ∨ isCow e = true

/-- The user of the space sees the pages of `space`. -/
structure Views (vm : Vm) (cr3 : Addr) (space : OwnSpace) : Prop where
  shows : ∀ p e, leafAt vm.mem cr3 p = some e → ∃ own, space p = some own ∧ Shows vm e own
  absent : ∀ p, leafAt vm.mem cr3 p = none → space p = none

/-- Shared spaces and spaces of their own that look alike. A page that some entry maps writable
is mapped by no other. -/
structure Refines (held : Addr → Prop) (s : Memory) (t : List OwnSpace) : Prop where
  forest : Forest s.vm ↑s.spaces 0 (fun _ => 0) held
  nodup : s.spaces.Nodup
  length : t.length = s.spaces.length
  views : ∀ (i : ℕ) cr3 space, s.spaces[i]? = some cr3 → t[i]? = some space → Views s.vm cr3 space
  alone : ∀ r ∈ s.spaces, ∀ r' ∈ s.spaces, ∀ p q e e', leafAt s.vm.mem r p = some e →
    leafAt s.vm.mem r' q = some e' → writable e = true → leafAddr e' = leafAddr e → r' = r ∧ q = p

section Relation

variable {vm vm' : Vm} {spaces : List Addr} {t : List OwnSpace} {held : Addr → Prop}
  {r cr3 virt : Addr} {space : OwnSpace} {i : ℕ} {b : Byte} {e : Word} {own : OwnPage}

theorem leafWord_eq (hr : IsFrame cr3) (hlow : (tableIndex virt 39).val < 256) :
    leafWord vm cr3 virt = leafAt vm.mem cr3 (pagePath virt) :=
  (leafAt_pagePath hr hlow).symm

theorem Views.entry {p : List (Fin 512)} (h : Views vm cr3 space) (hown : space p = some own) :
    ∃ e, leafAt vm.mem cr3 p = some e ∧ Shows vm e own := by
  cases he : leafAt vm.mem cr3 p with
  | none =>
    rw [h.absent p he] at hown
    cases hown
  | some e =>
    obtain ⟨own', hown', hshows⟩ := h.shows p e he
    rw [hown] at hown'
    cases hown'
    exact ⟨e, rfl, hshows⟩

/-- Entries and pages stay as they are. -/
theorem Views.congr (h : Views vm cr3 space)
    (hleaf : ∀ p, leafAt vm'.mem cr3 p = leafAt vm.mem cr3 p)
    (hpage : ∀ p e, leafAt vm.mem cr3 p = some e → vm'.mem (leafAddr e) = vm.mem (leafAddr e)) :
    Views vm' cr3 space := by
  refine ⟨fun p e he => ?_, fun p he => h.absent p (hleaf p ▸ he)⟩
  rw [hleaf p] at he
  obtain ⟨own, hown, hshows⟩ := h.shows p e he
  exact ⟨own, hown, hshows.page.trans (hpage p e he).symm, hshows.mayWrite⟩

theorem spaces_ne {i j : ℕ} {r' : Addr} (hnodup : spaces.Nodup) (hi : spaces[i]? = some r)
    (hj : spaces[j]? = some r') (hij : j ≠ i) : r' ≠ r := by
  intro heq
  subst heq
  obtain ⟨hlt, hget⟩ := List.getElem?_eq_some_iff.mp hi
  obtain ⟨hlt', hget'⟩ := List.getElem?_eq_some_iff.mp hj
  exact hij ((hnodup.getElem_inj_iff).mp (hget'.trans hget.symm))

/-! ## Stores -/

/-- A store through a writable entry. -/
theorem Refines.store (h : Refines held ⟨vm, spaces⟩ t) (hr : spaces[i]? = some cr3)
    (hspace : t[i]? = some space) (he : leafAt vm.mem cr3 (pagePath virt) = some e)
    (hw : writable e = true) (hown : space (pagePath virt) = some own) :
    Refines held ⟨vm.setPage (leafAddr e) (storeByte (vm.mem (leafAddr e)) virt b), spaces⟩
      (t.set i (update space (pagePath virt)
        (some { own with page := storeByte own.page virt b }))) := by
  have hin : cr3 ∈ spaces := List.mem_of_getElem? hr
  have hview := h.views i cr3 space hr hspace
  have htable : treeTables vm.mem ↑spaces (leafAddr e) = 0 :=
    (h.forest.mapped_page (mem_coe.mpr hin) he).2
  generalize hvm' : vm.setPage (leafAddr e) (storeByte (vm.mem (leafAddr e)) virt b) = vm'
  have hmem (x : Addr) (hx : x ≠ leafAddr e) : vm'.mem x = vm.mem x := by
    rw [← hvm', Vm.setPage_mem_of_ne _ hx]
  have htables (x : Addr) (hx : 0 < treeTables vm.mem ↑spaces x) : vm'.mem x = vm.mem x := by
    refine hmem x fun heq => ?_
    rw [heq] at hx
    omega
  have hleaf (r : Addr) (hr : r ∈ spaces) (p : List (Fin 512)) :
      leafAt vm'.mem r p = leafAt vm.mem r p :=
    leafAt_of_tables (mem_coe.mpr hr) htables p
  -- no other entry maps the page
  have hother (r : Addr) (hr : r ∈ spaces) (p : List (Fin 512)) (e' : Word)
      (he' : leafAt vm.mem r p = some e') (hne : ¬(r = cr3 ∧ p = pagePath virt)) :
      vm'.mem (leafAddr e') = vm.mem (leafAddr e') :=
    hmem _ fun heq => hne (h.alone cr3 hin r hr _ p e e' he he' hw heq)
  refine ⟨h.forest.mem_congr (by rw [← hvm', Vm.setPage_pmm]) htables, h.nodup, ?_, ?_, ?_⟩
  · rw [List.length_set]
    exact h.length
  · intro j r own' hj hspace'
    have hrin : r ∈ spaces := List.mem_of_getElem? hj
    by_cases hij : j = i
    · subst hij
      obtain rfl : r = cr3 := some.inj (hj.symm.trans hr)
      rw [List.getElem?_set_self (List.getElem?_eq_some_iff.mp hspace).1] at hspace'
      cases hspace'
      refine ⟨fun p e' he' => ?_, fun p he' => ?_⟩
      · rw [hleaf r hin p] at he'
        by_cases hp : p = pagePath virt
        · subst hp
          obtain rfl : e' = e := some.inj (he'.symm.trans he)
          obtain ⟨own0, hown0, hshows⟩ := hview.shows _ e' he
          obtain rfl : own0 = own := some.inj (hown0.symm.trans hown)
          refine ⟨_, update_self .., ?_, hshows.mayWrite⟩
          rw [← hvm', Vm.setPage_mem_self, hshows.page]
        · obtain ⟨own0, hown0, hshows⟩ := hview.shows p e' he'
          refine ⟨own0, ?_, hshows.page.trans (hother r hin p e' he' fun hand => hp hand.2).symm,
            hshows.mayWrite⟩
          rw [update_of_ne hp, hown0]
      · rw [hleaf r hin p] at he'
        have hp : p ≠ pagePath virt := by
          intro heq
          subst heq
          rw [he] at he'
          cases he'
        rw [update_of_ne hp, hview.absent p he']
    · rw [List.getElem?_set_ne (Ne.symm hij)] at hspace'
      have hne : r ≠ cr3 := spaces_ne h.nodup hr hj hij
      exact (h.views j r own' hj hspace').congr (hleaf r hrin) fun p e' he' =>
        hother r hrin p e' he' fun hand => hne hand.1
  · intro r hr r' hr' p q e1 e2 h1 h2
    rw [hleaf r hr] at h1
    rw [hleaf r' hr'] at h2
    exact h.alone r hr r' hr' p q e1 e2 h1 h2

/-- After a fault that is handled, the entry maps a page that is mapped nowhere else, with the
contents from before. -/
theorem fault_owner {roots : Multiset Addr} (h : Forest vm roots 0 (fun _ => 0) held)
    (hroot : cr3 ∈ roots) (hlow : (tableIndex virt 39).val < 256)
    (hrun : vmmHandleCowFault cr3 virt vm = (true, vm')) :
    ∃ e x, leafAt vm.mem cr3 (pagePath virt) = some e ∧ IsFrame x ∧
      leafAt vm'.mem cr3 (pagePath virt) = some (ownEntry x e) ∧ vm'.mem x = vm.mem (leafAddr e) ∧
      (∀ y, y ≠ x → treeTables vm.mem roots y = 0 → vm'.mem y = vm.mem y) ∧
      ∀ r ∈ roots, ∀ p e', leafAt vm.mem r p = some e' → leafAddr e' = x →
        r = cr3 ∧ p = pagePath virt := by
  obtain ⟨hfault, -, -, -⟩ := h.handleCowFault hroot hlow hrun
  cases hfault with
  | owned hleaf hcow hcount hself hpages =>
    rename_i e
    have htable := (h.mapped_page hroot hleaf).2
    refine ⟨e, leafAddr e, hleaf, isFrame_leafAddr e, hself, hpages _ htable,
      fun y _ hy => hpages y hy, fun r hr p e' he' hframe => ?_⟩
    have hpos := treeLeaves_pos hroot hleaf
    obtain ⟨-, -, -, hsum⟩ := h.accounts.owned (leafAddr e) (by omega)
    exact h.mapped_once hroot hr hleaf he' hframe (by omega)
  | copied hleaf hcow hcount hfree hframe hself hpage hpages =>
    rename_i e x
    refine ⟨e, x, hleaf, hframe, hself, hpage, hpages, fun r hr p e' he' hx => ?_⟩
    -- the page was free
    have hused := (h.mapped_page hr he').1.2
    rw [hx, hfree] at hused
    cases hused

/-- A copy-on-write fault that is handled. -/
theorem Refines.fault (h : Refines held ⟨vm, spaces⟩ t) (hr : spaces[i]? = some cr3)
    (hlow : (tableIndex virt 39).val < 256) (hrun : vmmHandleCowFault cr3 virt vm = (true, vm')) :
    Refines held ⟨vm', spaces⟩ t ∧
      ∃ e, leafAt vm'.mem cr3 (pagePath virt) = some e ∧ writable e = true := by
  have hin : cr3 ∈ spaces := mem_of_getElem? hr
  have hroot : cr3 ∈ (spaces : Multiset Addr) := mem_coe.mpr hin
  obtain ⟨-, hforest, hpaths, hroots⟩ := h.forest.handleCowFault hroot hlow hrun
  obtain ⟨e, x, he, hframe, hself, hpage, hpages, halone⟩ := fault_owner h.forest hroot hlow hrun
  have hleaf (r : Addr) (hr : r ∈ spaces) (p : List (Fin 512))
      (hne : ¬(r = cr3 ∧ p = pagePath virt)) : leafAt vm'.mem r p = leafAt vm.mem r p := by
    by_cases hrc : r = cr3
    · rw [hrc]
      exact hpaths p fun hp => hne ⟨hrc, hp⟩
    · exact hroots r (mem_coe.mpr hr) hrc p
  have hkept (r : Addr) (hr : r ∈ spaces) (p : List (Fin 512)) (e' : Word)
      (he' : leafAt vm.mem r p = some e') (hne : ¬(r = cr3 ∧ p = pagePath virt)) :
      vm'.mem (leafAddr e') = vm.mem (leafAddr e') :=
    hpages _ (fun heq => hne (halone r (mem_coe.mpr hr) p e' he' heq))
      (h.forest.mapped_page (mem_coe.mpr hr) he').2
  refine ⟨⟨hforest, h.nodup, h.length, fun j r space hj hspace => ?_, ?_⟩, _, hself,
    writable_ownEntry x e⟩
  · have hrin : r ∈ spaces := mem_of_getElem? hj
    have hview := h.views j r space hj hspace
    refine ⟨fun p e' he' => ?_, fun p he' => ?_⟩
    · by_cases hat : r = cr3 ∧ p = pagePath virt
      · obtain ⟨rfl, rfl⟩ := hat
        cases hself.symm.trans he'
        obtain ⟨own, hown, hshows⟩ := hview.shows _ e he
        refine ⟨own, hown, ?_, fun _ => .inl (writable_ownEntry x e)⟩
        rw [leafAddr_ownEntry hframe]
        exact hshows.page.trans hpage.symm
      · rw [hleaf r hrin p hat] at he'
        obtain ⟨own, hown, hshows⟩ := hview.shows p e' he'
        exact ⟨own, hown, hshows.page.trans (hkept r hrin p e' he' hat).symm, hshows.mayWrite⟩
    · by_cases hat : r = cr3 ∧ p = pagePath virt
      · obtain ⟨rfl, rfl⟩ := hat
        rw [show leafAt vm'.mem r (pagePath virt) = _ from hself] at he'
        cases he'
      · rw [hleaf r hrin p hat] at he'
        exact hview.absent p he'
  · intro r hrin r' hrin' p q e1 e2 h1 h2 hw hsame
    by_cases hat : r = cr3 ∧ p = pagePath virt
    · obtain ⟨rfl, rfl⟩ := hat
      cases hself.symm.trans h1
      rw [leafAddr_ownEntry hframe] at hsame
      by_cases hat' : r' = r ∧ q = pagePath virt
      · exact hat'
      · rw [hleaf r' hrin' q hat'] at h2
        exact halone r' (mem_coe.mpr hrin') q e2 h2 hsame
    · rw [hleaf r hrin p hat] at h1
      by_cases hat' : r' = cr3 ∧ q = pagePath virt
      · obtain ⟨rfl, rfl⟩ := hat'
        cases hself.symm.trans h2
        rw [leafAddr_ownEntry hframe] at hsame
        exact absurd (halone r (mem_coe.mpr hrin) p e1 h1 hsame.symm) hat
      · rw [hleaf r' hrin' q hat'] at h2
        exact h.alone r hrin r' hrin' p q e1 e2 h1 h2 hw hsame

theorem store_some (hr : IsFrame cr3) (hlow : (tableIndex virt 39).val < 256)
    (hrun : store cr3 virt b vm = some vm') :
    ∃ e, leafAt vm.mem cr3 (pagePath virt) = some e ∧ writable e = true ∧
      vm' = vm.setPage (leafAddr e) (storeByte (vm.mem (leafAddr e)) virt b) := by
  rw [ForkMemory.store, leafWord_eq hr hlow] at hrun
  obtain ⟨e, he, hrun⟩ := bind_eq_some_iff.mp hrun
  by_cases hw : writable e = true
  · rw [if_pos hw] at hrun
    exact ⟨e, he, hw, (some.inj hrun).symm⟩
  · rw [if_neg hw] at hrun
    cases hrun

theorem store_of_writable (hr : IsFrame cr3) (hlow : (tableIndex virt 39).val < 256)
    (he : leafAt vm.mem cr3 (pagePath virt) = some e) (hw : writable e = true) :
    (ForkMemory.store cr3 virt b vm).isSome = true := by
  rw [ForkMemory.store, leafWord_eq hr hlow, he, bind_eq_bind, bind_some, if_pos hw]
  rfl

/-- A store of a user program. -/
theorem Refines.userWrite (h : Refines held ⟨vm, spaces⟩ t) (hr : spaces[i]? = some cr3)
    (hlow : (tableIndex virt 39).val < 256) (hspace : t[i]? = some space)
    (hown : space (pagePath virt) = some own) (hrun : userWrite cr3 virt b vm = some vm') :
    Refines held ⟨vm', spaces⟩ (t.set i (update space (pagePath virt)
      (some { own with page := storeByte own.page virt b }))) := by
  have hframe : IsFrame cr3 :=
    h.forest.roots_frame cr3 (mem_coe.mpr (mem_of_getElem? hr))
  rw [ForkMemory.userWrite] at hrun
  cases hfirst : ForkMemory.store cr3 virt b vm with
  | some vm1 =>
    rw [hfirst] at hrun
    cases hrun
    obtain ⟨e, he, hw, rfl⟩ := store_some hframe hlow hfirst
    exact h.store hr hspace he hw hown
  | none =>
    rw [hfirst] at hrun
    rcases hfault : vmmHandleCowFault cr3 (virt &&& ~~~0xFFF) vm with ⟨ok, vm1⟩
    rw [hfault] at hrun
    cases ok with
    | false => cases hrun
    | true =>
      have hlow' : (tableIndex (virt &&& ~~~0xFFF) 39).val < 256 := by
        rwa [tableIndex_page (by decide)]
      obtain ⟨h1, -⟩ := h.fault hr hlow' hfault
      obtain ⟨e, he, hw, rfl⟩ := store_some hframe hlow hrun
      exact h1.store hr hspace he hw hown

/-! ## Forks and frees -/

theorem Refines.fork {child : Addr} (h : Refines held ⟨vm, spaces⟩ t) (hr : spaces[i]? = some cr3)
    (hspace : t[i]? = some space) (hfit : ∀ x, treeLeaves vm.mem ↑spaces x < 255)
    (hrun : forkSpace cr3 vm = (some child, vm')) :
    Refines held ⟨vm', spaces ++ [child]⟩ (t ++ [space]) := by
  have hin : cr3 ∈ spaces := List.mem_of_getElem? hr
  have hroot : cr3 ∈ (spaces : Multiset Addr) := mem_coe.mpr hin
  obtain ⟨hforked, lost', hlost, hforest⟩ := h.forest.fork hroot hrun
  obtain ⟨hnew, -, hcopy⟩ := hforked.copy child rfl
  have hnew : child ∉ spaces := fun hmem => hnew (mem_coe.mpr hmem)
  have hzero : lost' = fun _ => 0 := funext fun x => hlost x (hfit x) rfl
  rw [hzero] at hforest
  have hroots : ((spaces ++ [child] : List Addr) : Multiset Addr) = child ::ₘ ↑spaces := by
    rw [← coe_add, add_comm]
    rfl
  have hpage (r : Addr) (hrin : r ∈ spaces) (p : List (Fin 512)) (e : Word)
      (he : leafAt vm.mem r p = some e) : vm'.mem (leafAddr e) = vm.mem (leafAddr e) := by
    obtain ⟨hused, htable⟩ := h.forest.mapped_page (mem_coe.mpr hrin) he
    exact hforked.pages _ hused htable
  have hothers (r : Addr) (hrin : r ∈ spaces) (hne : r ≠ cr3) (p : List (Fin 512)) :
      leafAt vm'.mem r p = leafAt vm.mem r p :=
    hforked.others r (mem_coe.mpr hrin) hne p
  have hview := h.views i cr3 space hr hspace
  -- the two spaces that share their pages
  have hshared (r : Addr) (hleaf : ∀ p, leafAt vm'.mem r p = (leafAt vm.mem cr3 p).map cowEntry) :
      Views vm' r space := by
    refine ⟨fun p e he => ?_, fun p he => ?_⟩
    · rw [hleaf p] at he
      obtain ⟨e0, he0, rfl⟩ := map_eq_some_iff.mp he
      obtain ⟨own, hown, hshows⟩ := hview.shows p e0 he0
      refine ⟨own, hown, ?_, fun _ => .inr (isCow_cowEntry e0)⟩
      rw [leafAddr_cowEntry]
      exact hshows.page.trans (hpage cr3 hin p e0 he0).symm
    · rw [hleaf p] at he
      exact hview.absent p (map_eq_none_iff.mp he)
  -- a writable entry is an old one, of a space that is not shared
  have hwritable (r : Addr) (hrin : r ∈ spaces ++ [child]) (p : List (Fin 512)) (e : Word)
      (he : leafAt vm'.mem r p = some e) (hw : writable e = true) :
      r ∈ spaces ∧ r ≠ cr3 ∧ leafAt vm.mem r p = some e := by
    have hcow (hleaf : leafAt vm'.mem r p = (leafAt vm.mem cr3 p).map cowEntry) : False := by
      rw [hleaf] at he
      obtain ⟨e0, -, rfl⟩ := map_eq_some_iff.mp he
      rw [writable_cowEntry] at hw
      cases hw
    rcases List.mem_append.mp hrin with hrin | hrin
    · by_cases hrc : r = cr3
      · subst hrc
        exact (hcow (hcopy p).2).elim
      · exact ⟨hrin, hrc, by rwa [hothers r hrin hrc] at he⟩
    · obtain rfl := List.mem_singleton.mp hrin
      exact (hcow (hcopy p).1).elim
  refine ⟨?_, ?_, ?_, fun j r own hj hown => ?_, ?_⟩
  · rw [hroots]
    exact hforest
  · exact List.nodup_append.mpr ⟨h.nodup, List.nodup_singleton child, fun a ha b hb => by
      rw [List.mem_singleton.mp hb]
      intro heq
      subst heq
      exact hnew ha⟩
  · rw [List.length_append, List.length_append, h.length]
    rfl
  · have hlen : t.length = spaces.length := h.length
    by_cases hj' : j < spaces.length
    · rw [List.getElem?_append_left hj'] at hj
      rw [List.getElem?_append_left (by omega)] at hown
      have hrin : r ∈ spaces := List.mem_of_getElem? hj
      by_cases hrc : r = cr3
      · subst hrc
        have hij : j = i := by
          by_contra hne
          exact spaces_ne h.nodup hr hj hne rfl
        subst hij
        cases hown.symm.trans hspace
        exact hshared r fun p => (hcopy p).2
      · exact (h.views j r own hj hown).congr (hothers r hrin hrc) (hpage r hrin)
    · rw [List.getElem?_append_right (by omega)] at hj hown
      rw [hlen] at hown
      have hlast : j - spaces.length = 0 := by
        obtain ⟨hlt, -⟩ := List.getElem?_eq_some_iff.mp hj
        rw [List.length_singleton] at hlt
        omega
      rw [hlast] at hj hown
      obtain rfl : child = r := some.inj hj
      obtain rfl : space = own := some.inj hown
      exact hshared child fun p => (hcopy p).1
  · intro r hrin r' hrin' p q e1 e2 h1 h2 hw hsame
    obtain ⟨hold, hrc, h1⟩ := hwritable r hrin p e1 h1 hw
    -- the page of a shared entry was mapped by the parent
    have hcow (hleaf : leafAt vm'.mem r' q = (leafAt vm.mem cr3 q).map cowEntry) : r' = r ∧ q = p := by
      rw [hleaf] at h2
      obtain ⟨e0, he0, rfl⟩ := map_eq_some_iff.mp h2
      rw [leafAddr_cowEntry] at hsame
      exact absurd (h.alone r hold cr3 hin p q e1 e0 h1 he0 hw hsame).1.symm hrc
    rcases List.mem_append.mp hrin' with hrin' | hrin'
    · by_cases hrc' : r' = cr3
      · subst hrc'
        exact hcow (hcopy q).2
      · rw [hothers r' hrin' hrc'] at h2
        exact h.alone r hold r' hrin' p q e1 e2 h1 h2 hw hsame
    · obtain rfl := List.mem_singleton.mp hrin'
      exact hcow (hcopy q).1

theorem Refines.free (h : Refines held ⟨vm, spaces⟩ t) (hr : spaces[i]? = some cr3)
    (hi : i < t.length) :
    Refines held ⟨vmmFreeUserPages cr3 vm, spaces⟩ (t.set i fun _ => none) := by
  have hin : cr3 ∈ spaces := mem_of_getElem? hr
  obtain ⟨rest, hrest⟩ := exists_cons_of_mem (mem_coe.mpr hin)
  have hf : Forest vm (cr3 ::ₘ rest) 0 (fun _ => 0) held := hrest ▸ h.forest
  obtain ⟨hforest, hbare, hmem, -⟩ := hf.freeUserPages fun _ _ => .inl rfl
  rw [← hrest] at hforest
  generalize vmmFreeUserPages cr3 vm = vm' at *
  have hframe : IsFrame cr3 := h.forest.roots_frame cr3 (mem_coe.mpr hin)
  have hgone (p : List (Fin 512)) : leafAt vm'.mem cr3 p = none := leafAt_of_bare hframe hbare p
  -- the PML4 is a table of this space only
  have hothers (r : Addr) (hrin : r ∈ spaces) (hne : r ≠ cr3) (p : List (Fin 512)) :
      leafAt vm'.mem r p = leafAt vm.mem r p := by
    have hrrest : r ∈ rest := by
      have hmem := mem_coe.mpr hrin
      rw [hrest] at hmem
      exact (mem_cons.mp hmem).resolve_left hne
    exact leafAt_of_tables hrrest (fun x hx => hmem x (hf.ne_root hx)) p
  have hpage (r : Addr) (hrin : r ∈ spaces) (p : List (Fin 512)) (e : Word)
      (he : leafAt vm.mem r p = some e) : vm'.mem (leafAddr e) = vm.mem (leafAddr e) := by
    have htable : treeTables vm.mem ↑spaces (leafAddr e) = 0 :=
      (h.forest.mapped_page (mem_coe.mpr hrin) he).2
    refine hmem _ fun heq => ?_
    have hpos : 0 < treeTables vm.mem ↑spaces cr3 :=
      treeTables_pos (mem_coe.mpr hin) (below_root hframe)
    rw [← heq] at hpos
    omega
  refine ⟨hforest, h.nodup, ?_, fun j r own hj hown => ?_, ?_⟩
  · rw [length_set]
    exact h.length
  · have hrin : r ∈ spaces := mem_of_getElem? hj
    by_cases hij : j = i
    · subst hij
      cases hj.symm.trans hr
      rw [getElem?_set_self hi] at hown
      cases hown
      refine ⟨fun p e he => ?_, fun _ _ => rfl⟩
      rw [hgone p] at he
      cases he
    · rw [getElem?_set_ne (Ne.symm hij)] at hown
      have hne : r ≠ cr3 := spaces_ne h.nodup hr hj hij
      exact (h.views j r own hj hown).congr (hothers r hrin hne) (hpage r hrin)
  · intro r hrin r' hrin' p q e1 e2 h1 h2
    have hne : r ≠ cr3 := by
      intro heq
      subst heq
      rw [hgone p] at h1
      cases h1
    have hne' : r' ≠ cr3 := by
      intro heq
      subst heq
      rw [hgone q] at h2
      cases h2
    rw [hothers r hrin hne] at h1
    rw [hothers r' hrin' hne'] at h2
    exact h.alone r hrin r' hrin' p q e1 e2 h1 h2

end Relation

/-! ## Runs -/

section Runs

variable {s s' : Memory} {t t' : List OwnSpace} {held : Addr → Prop} {op : Op}

theorem Refines.step (h : Refines held s t) (hfit : CountsFit s op) (hs : step s op = some s')
    (ht : eagerStep t op = some t') : Refines held s' t' := by
  obtain ⟨vm, spaces⟩ := s
  cases op with
  | fork i =>
    obtain ⟨cr3, hr, hs⟩ := bind_eq_some_iff.mp hs
    obtain ⟨space, hspace, ht⟩ := bind_eq_some_iff.mp ht
    cases ht
    rcases hrun : forkSpace cr3 vm with ⟨res, vm'⟩
    rw [hrun] at hs
    cases res with
    | none => cases hs
    | some child =>
      cases hs
      exact h.fork hr hspace hfit hrun
  | write i virt b =>
    obtain ⟨cr3, hr, hs⟩ := bind_eq_some_iff.mp hs
    obtain ⟨space, hspace, ht⟩ := bind_eq_some_iff.mp ht
    obtain ⟨own, hown, ht⟩ := bind_eq_some_iff.mp ht
    split at hs
    · next hlow =>
      obtain ⟨vm', hrun, hs⟩ := bind_eq_some_iff.mp hs
      cases hs
      split at ht
      · cases ht
        exact h.userWrite hr hlow hspace hown hrun
      · cases ht
    · cases hs
  | free i =>
    obtain ⟨cr3, hr, hs⟩ := bind_eq_some_iff.mp hs
    obtain ⟨space, hspace, ht⟩ := bind_eq_some_iff.mp ht
    obtain rfl := some.inj hs
    cases ht
    exact h.free hr (List.getElem?_eq_some_iff.mp hspace).1

end Runs

end Crius.Process.ForkMemory
