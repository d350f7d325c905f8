import Crius.Process.ForkMemory

/-!
# What a fork shows of memory

In runs of forks, stores and frees every space shows the bytes that it would show if forks
copied all pages. Where more than 255 spaces have a page in common, the count of the page
stops before all of them are counted: the page is then taken for a page of one space while
others still map it.
-/
namespace Crius.Process.ForkMemory

open Lib Run Mm Elf List Option Nat

section Runs

variable {s : Memory} {t : List OwnSpace} {held : Addr → Prop}

theorem Unshared.refines (h : Unshared s) :
    ∃ held, Refines held s (s.spaces.map (ownSpace s.vm)) := by
  obtain ⟨held, hforest⟩ := h.forest
  have hnodup := Multiset.coe_nodup.mp hforest.roots_nodup
  refine ⟨held, hforest, hnodup, length_map .., fun i cr3 space hr hspace => ?_, ?_⟩
  · rw [getElem?_map, hr] at hspace
    obtain rfl := some.inj hspace
    refine ⟨fun p e he => ⟨_, by rw [ownSpace, he]; rfl, rfl, .inl⟩, fun p he => ?_⟩
    rw [ownSpace, he]
    rfl
  · intro r hr r' hr' p q e e' he he' _ hframe
    exact hforest.mapped_once (Multiset.mem_coe.mpr hr) (Multiset.mem_coe.mpr hr') he he' hframe
      (h.once _)

section

variable (h : Refines held s t) {i : ℕ} {cr3 virt : Addr} {space : OwnSpace}
  (hr : s.spaces[i]? = some cr3) (hspace : t[i]? = some space)
  (hlow : (tableIndex virt 39).val < 256)

include h hr hspace hlow

theorem Refines.byteAt : byteAt s.vm cr3 virt = space.byteAt virt := by
  have hframe : IsFrame cr3 :=
    h.forest.roots_frame cr3 (Multiset.mem_coe.mpr (mem_of_getElem? hr))
  have hview := h.views i cr3 space hr hspace
  rw [Elf.byteAt, leafWord_eq hframe hlow, OwnSpace.byteAt]
  cases he : leafAt s.vm.mem cr3 (pagePath virt) with
  | none => rw [hview.absent _ he, map_none, map_none]
  | some e =>
    obtain ⟨own, hown, hshows⟩ := hview.shows _ e he
    rw [hown, map_some, map_some, hshows.page]

/-- A page that is mapped writable can be written to, if a page is free. -/
theorem Refines.userWrite_isSome {own : OwnPage} (hown : space (pagePath virt) = some own)
    (hmay : own.mayWrite = true) (hfree : ∃ x, s.vm.pmm.Managed x ∧ s.vm.pmm.used x = false)
    (b : Byte) : (ForkMemory.userWrite cr3 virt b s.vm).isSome = true := by
  have hroot : cr3 ∈ (s.spaces : Multiset Addr) := Multiset.mem_coe.mpr (mem_of_getElem? hr)
  have hframe : IsFrame cr3 := h.forest.roots_frame cr3 hroot
  obtain ⟨e, he, hshows⟩ := (h.views i cr3 space hr hspace).entry hown
  rw [ForkMemory.userWrite]
  cases hfirst : ForkMemory.store cr3 virt b s.vm with
  | some vm => rfl
  | none =>
    have hcow : isCow e = true := by
      refine (hshows.mayWrite hmay).resolve_left fun hw => ?_
      have hstored := store_of_writable (b := b) hframe hlow he hw
      rw [hfirst] at hstored
      cases hstored
    have hlow' : (tableIndex (virt &&& ~~~0xFFF) 39).val < 256 := by
      rwa [tableIndex_page (by decide)]
    rcases hfault : vmmHandleCowFault cr3 (virt &&& ~~~0xFFF) s.vm with ⟨ok, vm⟩
    cases ok with
    | false =>
      -- the handler refuses a page that is marked for copying only if no page is free
      obtain ⟨hrefused, -⟩ := h.forest.handleCowFault hroot hlow' hfault
      cases hrefused with
      | refused hfull =>
        obtain ⟨x, hx, hxfree⟩ := hfree
        have hused := hfull e (by rw [pagePath_page, he]) hcow x hx
        rw [hxfree] at hused
        cases hused
    | true =>
      have h' : Refines held ⟨s.vm, s.spaces⟩ t := h
      obtain ⟨-, e', he', hw⟩ := h'.fault hr hlow' hfault
      rw [pagePath_page] at he'
      exact store_of_writable hframe hlow he' hw

end

end Runs

/-! ## One page in many spaces -/

section Many

variable {vm vm' : Vm} {roots : Multiset Addr} {lost : Addr → ℕ} {held : Addr → Prop}
  {r x virt : Addr} {e : Word} {b : Byte} {m : ℕ} {s : Memory} {spaces : List Addr}
  {t : List OwnSpace} {space : OwnSpace}

/-- A store to a page that is marked for copying. -/
structure Wrote (vm : Vm) (roots : Multiset Addr) (r virt : Addr) (b : Byte) (e : Word) (x : Addr)
    (vm' : Vm) : Prop where
  page : x = leafAddr e ∨ vm.pmm.used x = false
  entry : ∃ e', leafAt vm'.mem r (pagePath virt) = some e' ∧ leafAddr e' = x
  others : ∀ r' ∈ roots, ∀ q, ¬(r' = r ∧ q = pagePath virt) →
    leafAt vm'.mem r' q = leafAt vm.mem r' q
  stored : vm'.mem x = storeByte (vm.mem (leafAddr e)) virt b
  pages : ∀ y, y ≠ x → treeTables vm.mem roots y = 0 → vm'.mem y = vm.mem y

theorem userWrite_cow (h : Forest vm roots 0 lost held) (hroot : r ∈ roots)
    (hlow : (tableIndex virt 39).val < 256) (he : leafAt vm.mem r (pagePath virt) = some e)
    (hw : writable e = false) (hcow : isCow e = true) (hroom : Room (m + 1) vm) :
    ∃ vm' x, userWrite r virt b vm = some vm' ∧ Forest vm' roots 0 lost held ∧ Room m vm' ∧
      Wrote vm roots r virt b e x vm' := by
  have hframe := h.roots_frame r hroot
  have hfirst : store r virt b vm = none := by
    rw [store, leafWord_eq hframe hlow, he, bind_eq_bind, bind_some, hw,
      if_neg Bool.false_ne_true]
  have hlow' : (tableIndex (virt &&& ~~~0xFFF) 39).val < 256 := by
    rwa [tableIndex_page (by decide)]
  rcases hfault : vmmHandleCowFault r (virt &&& ~~~0xFFF) vm with ⟨ok, vm1⟩
  obtain ⟨hcase, hforest, hpaths, hroots⟩ := h.handleCowFault hroot hlow' hfault
  have hroom1 := vmmHandleCowFault_room hroom hfault
  rw [pagePath_page] at hcase hpaths
  -- the page that the entry maps after the fault
  obtain ⟨x, rfl, hx, hxframe, hself, hpage, hpages⟩ : ∃ x, ok = true ∧
      (x = leafAddr e ∨ vm.pmm.used x = false) ∧ IsFrame x ∧
      leafAt vm1.mem r (pagePath virt) = some (ownEntry x e) ∧ vm1.mem x = vm.mem (leafAddr e) ∧
      ∀ y, y ≠ x → treeTables vm.mem roots y = 0 → vm1.mem y = vm.mem y := by
    cases hcase with
    | refused hfull =>
      obtain ⟨x, hx, hxfree⟩ := hroom.exists_free
      have hused := hfull e he hcow x hx
      rw [hxfree] at hused
      cases hused
    | owned hleaf _ _ hself hpages =>
      cases hleaf.symm.trans he
      exact ⟨_, rfl, .inl rfl, isFrame_leafAddr _, hself, hpages _ (h.mapped_page hroot he).2,
        fun y _ hy => hpages y hy⟩
    | copied hleaf _ _ hfree hxframe hself hpage hpages =>
      cases hleaf.symm.trans he
      exact ⟨_, rfl, .inr hfree, hxframe, hself, hpage, hpages⟩
  have hxe : leafAddr (ownEntry x e) = x := leafAddr_ownEntry hxframe e
  have htable : treeTables vm1.mem roots x = 0 := by
    have hmapped := (hforest.mapped_page hroot hself).2
    rwa [hxe] at hmapped
  have hsecond : store r virt b vm1 = some (vm1.setPage x (storeByte (vm1.mem x) virt b)) := by
    rw [store, leafWord_eq hframe hlow, hself, bind_eq_bind, bind_some,
      writable_ownEntry, if_pos rfl, hxe]
  generalize hvm' : vm1.setPage x (storeByte (vm1.mem x) virt b) = vm' at hsecond
  have hmem (y : Addr) (hy : y ≠ x) : vm'.mem y = vm1.mem y := by
    rw [← hvm', Vm.setPage_mem_of_ne _ hy]
  have htables (y : Addr) (hy : 0 < treeTables vm1.mem roots y) : vm'.mem y = vm1.mem y := by
    refine hmem y ?_
    intro heq
    subst heq
    omega
  have hpmm : vm'.pmm = vm1.pmm := by rw [← hvm', Vm.setPage_pmm]
  refine ⟨vm', x, ?_, hforest.mem_congr hpmm htables, ?_, hx, ⟨_, ?_, hxe⟩, fun r' hr' q hne => ?_,
    ?_, fun y hy hzero => ?_⟩
  · rw [userWrite, hfirst, hfault]
    exact hsecond
  · rw [Room, hpmm]
    exact hroom1
  · rw [leafAt_of_tables hroot htables, hself]
  · rw [leafAt_of_tables hr' htables]
    by_cases hrr : r' = r
    · rw [hrr]
      exact hpaths q fun hq => hne ⟨hrr, hq⟩
    · exact hroots r' hr' hrr q
  · rw [← hvm', Vm.setPage_mem_self, hpage]
  · rw [hmem y hy, hpages y hy hzero]

/-- A space with one page. -/
def smallMemory : Memory := ⟨onePage 7, [0x100000]⟩

def manyForks : List Op := (List.range 256).map fun _ => .fork 0

/-- Each child stores to its page. -/
def manyWrites : List Op := (List.range 256).map fun k => .write (k + 1) 0 1

/-- After `k` forks. -/
structure Spread (k : ℕ) (s : Memory) : Prop where
  forest : ∃ lost, Forest s.vm ↑s.spaces 0 lost fun _ => False
  sparse : Sparse s.vm
  room : Room (256 + 4 * (256 - k)) s.vm
  length : s.spaces.length = k + 1
  head : s.spaces[0]? = some 0x100000
  leaf : ∀ r ∈ s.spaces, ∃ e, leafAt s.vm.mem r (pagePath 0) = some e ∧ leafAddr e = 0x101000 ∧
    (r ≠ 0x100000 → writable e = false ∧ isCow e = true)
  only : ∀ r ∈ s.spaces, ∀ p, p ≠ pagePath 0 → leafAt s.vm.mem r p = none

theorem Spread.fork {k : ℕ} (h : Spread k s) (hk : k < 256) :
    ∃ s', step s (.fork 0) = some s' ∧ Spread (k + 1) s' := by
  obtain ⟨lost, hforest⟩ := h.forest
  have hin := mem_of_getElem? h.head
  have hroom : Room (256 + 4 * (256 - (k + 1)) + 4) s.vm :=
    ⟨h.room.1, le_trans (by omega) h.room.2⟩
  obtain ⟨child, vm', hrun, hsparse', hroom'⟩ := forkSpace_sparse 0x100000 hforest.ok h.sparse hroom
  obtain ⟨hforked, lost', -, hforest'⟩ := hforest.fork (Multiset.mem_coe.mpr hin) hrun
  obtain ⟨-, -, hcopy⟩ := hforked.copy child rfl
  obtain ⟨e0, he0, hframe0, -⟩ := h.leaf _ hin
  -- the two spaces that share the page
  have hshared (r : Addr) (hleaf : ∀ p, leafAt vm'.mem r p = (leafAt s.vm.mem 0x100000 p).map cowEntry) :
      (∃ e, leafAt vm'.mem r (pagePath 0) = some e ∧ leafAddr e = 0x101000 ∧
        writable e = false ∧ isCow e = true) ∧
      ∀ p, p ≠ pagePath 0 → leafAt vm'.mem r p = none := by
    refine ⟨⟨cowEntry e0, ?_, ?_, writable_cowEntry e0, isCow_cowEntry e0⟩, fun p hp => ?_⟩
    · rw [hleaf, he0, map_some]
    · rw [leafAddr_cowEntry, hframe0]
    · rw [hleaf, h.only _ hin p hp, map_none]
  have hall (r : Addr) (hr : r ∈ s.spaces ++ [child]) :
      (∃ e, leafAt vm'.mem r (pagePath 0) = some e ∧ leafAddr e = 0x101000 ∧
        (r ≠ 0x100000 → writable e = false ∧ isCow e = true)) ∧
      ∀ p, p ≠ pagePath 0 → leafAt vm'.mem r p = none := by
    rcases mem_append.mp hr with hr | hr
    · by_cases hrc : r = 0x100000
      · obtain ⟨⟨e, he, hframe, -⟩, honly⟩ := hshared 0x100000 fun p => (hcopy p).2
        rw [hrc]
        exact ⟨⟨e, he, hframe, fun hne => absurd rfl hne⟩, honly⟩
      · have hsame := hforked.others r (Multiset.mem_coe.mpr hr) hrc
        obtain ⟨e, he, hframe, hcow⟩ := h.leaf r hr
        refine ⟨⟨e, by rw [hsame, he], hframe, hcow⟩, fun p hp => ?_⟩
        rw [hsame, h.only r hr p hp]
    · rw [mem_singleton.mp hr]
      obtain ⟨⟨e, he, hframe, hcow⟩, honly⟩ := hshared child fun p => (hcopy p).1
      exact ⟨⟨e, he, hframe, fun _ => hcow⟩, honly⟩
  refine ⟨⟨vm', s.spaces ++ [child]⟩, ?_, ⟨lost', ?_⟩, hsparse', hroom', ?_, ?_,
    fun r hr => (hall r hr).1, fun r hr => (hall r hr).2⟩
  · rw [step, h.head, bind_eq_bind, bind_some, hrun]
  · rw [← Multiset.coe_add, add_comm]
    exact hforest'
  · rw [length_append, h.length]
    rfl
  · rw [getElem?_append_left (by rw [h.length]; omega), h.head]

/-- After `k` of the children have stored to their page: the page that all had in common was
written to, or these have other pages. -/
structure Written (lost : Addr → ℕ) (spaces : List Addr) (k : ℕ) (s : Memory) : Prop where
  same : s.spaces = spaces
  forest : Forest s.vm ↑spaces 0 lost fun _ => False
  room : Room (256 - k) s.vm
  leaf : ∃ e, leafAt s.vm.mem 0x100000 (pagePath 0) = some e ∧ leafAddr e = 0x101000
  waiting : ∀ (j : ℕ) r, k < j → spaces[j]? = some r → ∃ e, leafAt s.vm.mem r (pagePath 0) = some e ∧
    leafAddr e = 0x101000 ∧ writable e = false ∧ isCow e = true
  only : ∀ r ∈ spaces, ∀ p, p ≠ pagePath 0 → leafAt s.vm.mem r p = none
  outcome : pageByte (s.vm.mem 0x101000) 0 = 1 ∨ ∀ (j : ℕ) r, 0 < j → j ≤ k →
    spaces[j]? = some r → ∀ e, leafAt s.vm.mem r (pagePath 0) = some e → leafAddr e ≠ 0x101000

theorem Written.write {k : ℕ} (h : Written lost spaces k s) (hlen : spaces.length = 257)
    (hhead : spaces[0]? = some 0x100000) (hk : k < 256) :
    ∃ s', step s (.write (k + 1) 0 1) = some s' ∧ Written lost spaces (k + 1) s' := by
  have hnodup := Multiset.coe_nodup.mp h.forest.roots_nodup
  obtain ⟨r, hr⟩ : ∃ r, spaces[k + 1]? = some r :=
    ⟨_, getElem?_eq_getElem (show k + 1 < spaces.length by omega)⟩
  have hin : r ∈ spaces := mem_of_getElem? hr
  have hlow : (tableIndex 0 39).val < 256 := by decide
  obtain ⟨e, he, hframe, hw, hcow⟩ := h.waiting (k + 1) r (by omega) hr
  have hroom : Room (256 - (k + 1) + 1) s.vm := ⟨h.room.1, le_trans (by omega) h.room.2⟩
  obtain ⟨vm', x, hrun, hforest, hroom', hwrote⟩ :=
    userWrite_cow (b := 1) h.forest (Multiset.mem_coe.mpr hin) hlow he hw hcow hroom
  have hmapped := h.forest.mapped_page (Multiset.mem_coe.mpr hin) he
  rw [hframe] at hmapped
  have hothers (j : ℕ) (r' : Addr) (hj : spaces[j]? = some r') (hne : j ≠ k + 1) (p : List (Fin 512)) :
      leafAt vm'.mem r' p = leafAt s.vm.mem r' p :=
    hwrote.others r' (Multiset.mem_coe.mpr (mem_of_getElem? hj)) p fun hand =>
      spaces_ne hnodup hr hj hne hand.1
  refine ⟨⟨vm', s.spaces⟩, ?_, h.same, hforest, hroom', ?_, fun j r' hj hr' => ?_,
    fun r' hr' p hp => ?_, ?_⟩
  · rw [step, h.same, hr, bind_eq_bind, bind_some, if_pos hlow, hrun]
    rfl
  · rw [hothers 0 _ hhead (by omega)]
    exact h.leaf
  · rw [hothers j r' hr' (by omega)]
    exact h.waiting j r' (by omega) hr'
  · rw [hwrote.others r' (Multiset.mem_coe.mpr hr') p fun hand => hp hand.2]
    exact h.only r' hr' p hp
  · by_cases hx : x = 0x101000
    · left
      have hstored := hwrote.stored
      rw [hx] at hstored
      rw [hstored, storeByte, pageByte_copyIn _ _ _ _ (by decide)]
      rfl
    · have hkept : vm'.mem 0x101000 = s.vm.mem 0x101000 :=
        hwrote.pages _ (Ne.symm hx) hmapped.2
      rcases h.outcome with hdone | hmoved
      · left
        rw [show (Memory.mk vm' s.spaces).vm.mem 0x101000 = _ from hkept, hdone]
      · right
        intro j r' hpos hj hr' e' he'
        by_cases hjk : j = k + 1
        · subst hjk
          cases hr'.symm.trans hr
          obtain ⟨e1, he1, hx1⟩ := hwrote.entry
          cases he'.symm.trans he1
          rw [hx1]
          exact hx
        · rw [hothers j r' hr' hjk] at he'
          exact hmoved j r' hpos (by omega) hr' e' he'

/-- In the end the page was written to. -/
theorem Written.stored (h : Written lost spaces 256 s) (hlen : spaces.length = 257)
    (hhead : spaces[0]? = some 0x100000) (hlost : 2 ≤ lost 0x101000) :
    byteAt s.vm 0x100000 0 = some 1 := by
  have hin := List.mem_of_getElem? hhead
  have hframe := h.forest.roots_frame _ (Multiset.mem_coe.mpr hin)
  obtain ⟨e, he, hpage⟩ := h.leaf
  have hbyte : pageByte (s.vm.mem 0x101000) 0 = 1 := by
    rcases h.outcome with hdone | hmoved
    · exact hdone
    · -- the page has one entry, but more than two are counted
      exfalso
      have hpos := treeLeaves_pos (Multiset.mem_coe.mpr hin) he
      rw [hpage] at hpos
      obtain ⟨-, -, hcount, hsum⟩ := h.forest.accounts.owned 0x101000 (by omega)
      have hsole : treeTables s.vm.mem ↑spaces 0x101000 = 0 := by
        have hmapped := (h.forest.mapped_page (Multiset.mem_coe.mpr hin) he).2
        rwa [hpage] at hmapped
      cases hspaces : spaces with
      | nil =>
        rw [hspaces] at hlen
        cases hlen
      | cons root rest =>
        have hrest : treeLeaves s.vm.mem ↑rest 0x101000 = 0 := by
          refine treeLeaves_eq_zero fun r hr => ?_
          by_contra hne
          obtain ⟨p, w, hp, hw⟩ := Radix.exists_of_leafCount (pos_of_ne_zero hne)
          obtain ⟨j, hj⟩ := List.getElem?_of_mem (Multiset.mem_coe.mp hr)
          have hrin : r ∈ spaces := by
            rw [hspaces]
            exact List.mem_cons_of_mem root (Multiset.mem_coe.mp hr)
          have hjr : spaces[j + 1]? = some r := by rw [hspaces, List.getElem?_cons_succ, hj]
          have hjlt : j + 1 < spaces.length := (List.getElem?_eq_some_iff.mp hjr).1
          have hpath : p = pagePath 0 := by
            by_contra hpne
            have hnone := h.only r hrin p hpne
            rw [leafAt, hp] at hnone
            cases hnone
          subst hpath
          exact hmoved (j + 1) r (by omega) (by omega) hjr w hp hw
        have hslim : rootLeaves s.vm.mem root 0x101000 ≤ 1 :=
          h.forest.slim root (by rw [hspaces]; exact Multiset.mem_coe.mpr List.mem_cons_self) _
        have hcons : treeLeaves s.vm.mem ↑spaces 0x101000 =
            rootLeaves s.vm.mem root 0x101000 + treeLeaves s.vm.mem ↑rest 0x101000 := by
          rw [hspaces, ← Multiset.cons_coe, treeLeaves_cons]
        have hzero : (0 : Multiset Addr).count 0x101000 = 0 := Multiset.count_zero _
        omega
  rw [Elf.byteAt, leafWord_eq hframe (by decide), he, map_some, hpage]
  exact congrArg some hbyte

/-- The spaces of their own. -/
structure Copies (n : ℕ) (space : OwnSpace) (t : List OwnSpace) : Prop where
  length : t.length = n
  head : t[0]? = some space
  own : ∀ space ∈ t, ∃ own, space (pagePath 0) = some own ∧ own.mayWrite = true

theorem Copies.fork {n : ℕ} (h : Copies n space t) :
    ∃ t', eagerStep t (.fork 0) = some t' ∧ Copies (n + 1) space t' := by
  refine ⟨t ++ [space], ?_, ?_, ?_, fun sp hsp => ?_⟩
  · rw [eagerStep, h.head]
    rfl
  · rw [List.length_append, h.length]
    rfl
  · rw [List.getElem?_append_left (List.getElem?_eq_some_iff.mp h.head).1, h.head]
  · rcases List.mem_append.mp hsp with hsp | hsp
    · exact h.own sp hsp
    · rw [List.mem_singleton.mp hsp]
      exact h.own space (List.mem_of_getElem? h.head)

theorem Copies.write {n j : ℕ} (h : Copies n space t) (hpos : 0 < j) (hj : j < n) :
    ∃ t', eagerStep t (.write j 0 1) = some t' ∧ Copies n space t' := by
  obtain ⟨sp, hsp⟩ : ∃ sp, t[j]? = some sp :=
    ⟨_, getElem?_eq_getElem (show j < t.length by rw [h.length]; exact hj)⟩
  obtain ⟨own, hown, hmay⟩ := h.own sp (mem_of_getElem? hsp)
  refine ⟨t.set j (Function.update sp (pagePath 0) (some { own with page := storeByte own.page 0 1 })),
    ?_, ?_, ?_, fun sp' hsp' => ?_⟩
  · rw [eagerStep, hsp, bind_eq_bind, bind_some, hown, bind_eq_bind,
      bind_some, if_pos hmay]
  · rw [length_set, h.length]
  · rw [getElem?_set_ne (by omega), h.head]
  · rcases mem_or_eq_of_mem_set hsp' with hsp' | rfl
    · exact h.own sp' hsp'
    · exact ⟨_, Function.update_self .., hmay⟩

theorem smallMemory_spec : Unshared smallMemory ∧ Spread 0 smallMemory ∧
    Copies 1 (ownSpace (onePage 7) 0x100000) (smallMemory.spaces.map (ownSpace smallMemory.vm)) ∧
    (ownSpace (onePage 7) 0x100000).byteAt 0 = some 0 := by
  have hdone : (vmmMapPage 0x100000 0 0x101000 7 bareVm).1 = true := by decide
  obtain ⟨hforest, hsparse, hroom, hself, hothers⟩ := onePage_spec (by decide) (by decide) hdone
  have hforest : Forest smallMemory.vm ↑smallMemory.spaces 0 (fun _ => 0) fun _ => False := hforest
  have hown : ownSpace (onePage 7) 0x100000 (pagePath 0) =
      some ⟨(onePage 7).mem 0x101000, true⟩ := by
    have hpage : leafAddr (mapEntry 0x101000 7) = 0x101000 := by decide
    have hwritable : writable (mapEntry 0x101000 7) = true := by decide
    rw [ownSpace, hself, map_some, hpage, hwritable]
  refine ⟨⟨⟨_, hforest⟩, fun x => ?_⟩, ⟨⟨_, hforest⟩, hsparse, ?_, rfl, rfl, fun r hr => ?_,
    fun r hr p hp => ?_⟩, ⟨rfl, rfl, fun space hspace => ?_⟩, ?_⟩
  · exact treeLeaves_le_card hforest.slim x
  · exact ⟨hroom.1, le_trans (by decide) hroom.2⟩
  · rw [mem_singleton.mp hr]
    exact ⟨_, hself, by decide, fun hne => absurd rfl hne⟩
  · rw [mem_singleton.mp hr]
    exact hothers p hp
  · rw [mem_singleton.mp hspace]
    exact ⟨_, hown, rfl⟩
  · rw [OwnSpace.byteAt, hown]
    exact congrArg some (by decide +kernel)

end Many

/-! ## Results -/

/-- Copy-on-write looks like eager copies. -/
theorem cow_refines_eager {s₀ s : Memory} {t : List OwnSpace} {ops : List Op} (hboot : Unshared s₀)
    (hfit : Along step CountsFit s₀ ops) (hrun : run step s₀ ops = some s)
    (heager : run eagerStep (s₀.spaces.map (ownSpace s₀.vm)) ops = some t) :
    t.length = s.spaces.length ∧ ∀ (i : ℕ) cr3 space, s.spaces[i]? = some cr3 → t[i]? = some space →
      ∀ virt, (tableIndex virt 39).val < 256 → byteAt s.vm cr3 virt = space.byteAt virt ∧
        ∀ own, space (pagePath virt) = some own → own.mayWrite = true →
          (∃ x, s.vm.pmm.Managed x ∧ s.vm.pmm.used x = false) →
          ∀ b, (userWrite cr3 virt b s.vm).isSome = true := by
  obtain ⟨held, hstart⟩ := hboot.refines
  have h : Refines held s t :=
    run_simulation step (fun _ _ _ _ _ h hfit hs ht => h.step hfit hs ht) hstart hfit hrun heager
  refine ⟨h.length, fun i cr3 space hr hspace virt hlow => ⟨h.byteAt hr hspace hlow, ?_⟩⟩
  intro own hown hmay hfree b
  exact h.userWrite_isSome hr hspace hlow hown hmay hfree b

/-- The first space is forked, and the child stores to the page that they share. -/
theorem smallMemory_child : ∃ s1 vm, run step smallMemory [.fork 0] = some s1 ∧
    s1.spaces[0]? = some 0x100000 ∧ run step s1 [.write 1 0 1] = some ⟨vm, s1.spaces⟩ := by
  obtain ⟨-, hspread, -⟩ := smallMemory_spec
  obtain ⟨s1, hfork, h1⟩ := hspread.fork (by decide)
  obtain ⟨lost, hforest⟩ := h1.forest
  obtain ⟨child, hchild⟩ : ∃ child, s1.spaces[1]? = some child :=
    ⟨_, getElem?_eq_getElem (show 1 < s1.spaces.length by rw [h1.length]; decide)⟩
  have hin : child ∈ s1.spaces := mem_of_getElem? hchild
  have hnodup := Multiset.coe_nodup.mp hforest.roots_nodup
  have hne : child ≠ 0x100000 := spaces_ne hnodup h1.head hchild (by decide)
  obtain ⟨e, he, -, hcow⟩ := h1.leaf child hin
  obtain ⟨vm, -, hwrite, -⟩ := userWrite_cow (b := 1) (m := 0) hforest (Multiset.mem_coe.mpr hin)
    (show (tableIndex 0 39).val < 256 by decide) he (hcow hne).1 (hcow hne).2
    ⟨h1.room.1, le_trans (by decide) h1.room.2⟩
  refine ⟨s1, vm, ?_, h1.head, ?_⟩
  · rw [run_cons, hfork, bind_some, run_nil]
  · rw [run_cons, step, hchild, bind_eq_bind, bind_some, if_pos (by decide), hwrite]
    rfl

/-- A child stores to its page; the parent does not see it. -/
theorem cow_refines_eager_child : Unshared smallMemory ∧ ∃ s t,
    run step smallMemory [.fork 0, .write 1 0 1] = some s ∧
    run eagerStep (smallMemory.spaces.map (ownSpace smallMemory.vm)) [.fork 0, .write 1 0 1] = some t ∧
    s.spaces[0]? = some 0x100000 ∧ byteAt s.vm 0x100000 0 = some 0 := by
  obtain ⟨hboot, -, hcopies, hbyte⟩ := smallMemory_spec
  obtain ⟨s1, vm, hfork, hhead, hwrite⟩ := smallMemory_child
  obtain ⟨t1, heager1, ht1⟩ := hcopies.fork
  obtain ⟨t, heager2, ht⟩ := ht1.write (j := 1) (by decide) (by decide)
  have hrun : run step smallMemory ([.fork 0] ++ [.write 1 0 1]) = some ⟨vm, s1.spaces⟩ := by
    rw [run_append, hfork, bind_some, hwrite]
  have heager : run eagerStep (smallMemory.spaces.map (ownSpace smallMemory.vm))
      [.fork 0, .write 1 0 1] = some t := by
    rw [run_cons, heager1, bind_some, run_cons, heager2, bind_some, run_nil]
  have hfit : Along step CountsFit smallMemory [.fork 0, .write 1 0 1] :=
    ⟨fun x => lt_of_le_of_lt (hboot.once x) (by decide), fun _ _ => ⟨trivial, fun _ _ => trivial⟩⟩
  have hview := (cow_refines_eager hboot hfit hrun heager).2 0 _ _ hhead ht.head 0 (by decide)
  exact ⟨hboot, _, t, hrun, heager, hhead, hview.1.trans hbyte⟩

/-- With more spaces than `page_refs[]` can count, a store of one is seen by another. -/
theorem cow_shares_stores : Unshared smallMemory ∧ ∃ s t space,
    run step smallMemory (manyForks ++ manyWrites) = some s ∧
    run eagerStep (smallMemory.spaces.map (ownSpace smallMemory.vm)) (manyForks ++ manyWrites) = some t ∧
    s.spaces[0]? = some 0x100000 ∧ t[0]? = some space ∧
    byteAt s.vm 0x100000 0 = some 1 ∧ space.byteAt 0 = some 0 := by
  obtain ⟨hboot, hspread, hcopies, hbyte⟩ := smallMemory_spec
  -- the forks
  obtain ⟨s1, hrun1, h1⟩ :=
    run_range step Spread (fun _ => .fork 0) (fun k hk s h => h.fork hk) hspread
  obtain ⟨t1, heager1, ht1⟩ := run_range eagerStep
    (fun k => Copies (k + 1) (ownSpace (onePage 7) 0x100000)) (fun _ => .fork 0)
    (fun k (_ : k < 256) t h => h.fork) hcopies
  obtain ⟨lost, hforest⟩ := h1.forest
  have hlen : s1.spaces.length = 257 := h1.length
  have hlost : 2 ≤ lost 0x101000 := by
    have hcard : (s1.spaces : Multiset Addr).card ≤ treeLeaves s1.vm.mem ↑s1.spaces 0x101000 := by
      refine card_le_treeLeaves fun r hr => ?_
      obtain ⟨e, he, hpage, -⟩ := h1.leaf r (Multiset.mem_coe.mp hr)
      rw [← hpage]
      exact rootLeaves_pos he
    rw [Multiset.coe_card, hlen] at hcard
    obtain ⟨-, -, -, hsum⟩ := hforest.accounts.owned 0x101000 (by omega)
    have hle : s1.vm.pmm.count 0x101000 ≤ 255 := hforest.ok.refs_le _
    omega
  -- the stores
  have hstart : Written lost s1.spaces 0 s1 := by
    refine ⟨rfl, hforest, ⟨h1.room.1, le_trans (by decide) h1.room.2⟩, ?_, fun j r hj hr => ?_,
      h1.only, .inr fun j r hpos hle => by omega⟩
    · obtain ⟨e, he, hpage, -⟩ := h1.leaf _ (mem_of_getElem? h1.head)
      exact ⟨e, he, hpage⟩
    · obtain ⟨e, he, hpage, hcow⟩ := h1.leaf r (mem_of_getElem? hr)
      have hnodup := Multiset.coe_nodup.mp hforest.roots_nodup
      have hne : r ≠ 0x100000 := spaces_ne hnodup h1.head hr (by omega)
      exact ⟨e, he, hpage, hcow hne⟩
  obtain ⟨s, hrun, h⟩ := run_range step (Written lost s1.spaces) (fun k => .write (k + 1) 0 1)
    (fun k hk s h => h.write hlen h1.head hk) hstart
  obtain ⟨t, heager, ht⟩ := run_range eagerStep
    (fun _ => Copies 257 (ownSpace (onePage 7) 0x100000)) (fun k => .write (k + 1) 0 1)
    (fun k (hk : k < 256) t h => h.write (succ_pos k) (by omega)) ht1
  refine ⟨hboot, s, t, _, ?_, ?_, ?_, ht.head, h.stored hlen h1.head hlost, hbyte⟩
  · rw [manyForks, manyWrites, run_append, hrun1, bind_some, hrun]
  · rw [manyForks, manyWrites, run_append, heager1, bind_some, heager]
  · rw [h.same, h1.head]

/-! ## Isolation -/

section Isolation

variable {s s' : Memory} {t : List OwnSpace} {held : Addr → Prop} {i : ℕ} {cr3 virt : Addr}

/-- The operation is none on space `i`, except for a fork of it. -/
def Op.Foreign (i : ℕ) : Op → Prop
  | .fork _ => True
  | .write j _ _ | .free j => j ≠ i

/-- A store that is made goes to a page that the space has. -/
theorem Refines.written_page {b : Byte} {vm' : Vm} {space : OwnSpace} (h : Refines held s t)
    (hr : s.spaces[i]? = some cr3) (hspace : t[i]? = some space)
    (hlow : (tableIndex virt 39).val < 256) (hrun : ForkMemory.userWrite cr3 virt b s.vm = some vm') :
    ∃ own, space (pagePath virt) = some own := by
  have hroot : cr3 ∈ (s.spaces : Multiset Addr) := Multiset.mem_coe.mpr (mem_of_getElem? hr)
  obtain ⟨e, he⟩ : ∃ e, leafAt s.vm.mem cr3 (pagePath virt) = some e := by
    rw [ForkMemory.userWrite] at hrun
    cases hfirst : ForkMemory.store cr3 virt b s.vm with
    | some vm1 =>
      obtain ⟨e, he, -⟩ := store_some (h.forest.roots_frame cr3 hroot) hlow hfirst
      exact ⟨e, he⟩
    | none =>
      rw [hfirst] at hrun
      rcases hfault : vmmHandleCowFault cr3 (virt &&& ~~~0xFFF) s.vm with ⟨ok, vm1⟩
      rw [hfault] at hrun
      cases ok with
      | false => cases hrun
      | true =>
        obtain ⟨e, -, he, -⟩ := fault_owner h.forest hroot (by rwa [tableIndex_page (by decide)]) hfault
        exact ⟨e, by rwa [pagePath_page] at he⟩
  obtain ⟨own, hown, -⟩ := (h.views i cr3 space hr hspace).shows _ e he
  exact ⟨own, hown⟩

/-- A step leaves the spaces that it is not on as they were. -/
theorem Refines.step_foreign {op : Op} (h : Refines held s t) (hfit : CountsFit s op)
    (hs : ForkMemory.step s op = some s') : ∃ t', Refines held s' t' ∧
      ∀ i < t.length, op.Foreign i → t'[i]? = t[i]? ∧ s'.spaces[i]? = s.spaces[i]? := by
  obtain ⟨vm, spaces⟩ := s
  have hlen : t.length = spaces.length := h.length
  cases op <;> obtain ⟨r, hr, hs⟩ := bind_eq_some_iff.mp hs
  all_goals
    have hlt := hlen ▸ (List.getElem?_eq_some_iff.mp hr).1
    have hspace := getElem?_eq_getElem hlt
  case fork j =>
    rcases hrun : forkSpace r vm with ⟨res, vm'⟩
    rw [hrun] at hs
    cases res with
    | none => cases hs
    | some child =>
      cases hs
      exact ⟨_, h.fork hr hspace hfit hrun, fun i hi _ =>
        ⟨getElem?_append_left hi, getElem?_append_left (hlen ▸ hi)⟩⟩
  case write j virt b =>
    split_ifs at hs with hlow
    obtain ⟨vm', hrun, hs⟩ := bind_eq_some_iff.mp hs
    obtain ⟨own, hown⟩ := h.written_page hr hspace hlow hrun
    cases hs
    exact ⟨_, h.userWrite hr hlow hspace hown hrun, fun i _ hne => ⟨getElem?_set_ne hne, rfl⟩⟩
  case free j =>
    obtain rfl := some.inj hs
    exact ⟨_, h.free hr hlt, fun i _ hne => ⟨getElem?_set_ne hne, rfl⟩⟩

theorem Refines.run_foreign {ops : List Op} (h : Refines held s t)
    (hfit : Along ForkMemory.step CountsFit s ops) (hrun : run ForkMemory.step s ops = some s') :
    ∃ t', Refines held s' t' ∧ ∀ i < t.length, (∀ op ∈ ops, op.Foreign i) →
      t'[i]? = t[i]? ∧ s'.spaces[i]? = s.spaces[i]? := by
  induction ops generalizing s t with
  | nil =>
    cases hrun
    exact ⟨t, h, fun _ _ _ => ⟨rfl, rfl⟩⟩
  | cons op ops ih =>
    obtain ⟨s1, hs, hrest⟩ := run_cons_some ForkMemory.step hrun
    obtain ⟨t1, h1, hsame⟩ := h.step_foreign hfit.1 hs
    obtain ⟨t', h', hsame'⟩ := ih h1 (hfit.2 s1 hs) hrest
    refine ⟨t', h', fun i hi hops => ?_⟩
    obtain ⟨hview, hspace⟩ := hsame i hi (hops op mem_cons_self)
    obtain ⟨hlt, -⟩ := List.getElem?_eq_some_iff.mp (hview.trans (getElem?_eq_getElem hi))
    rw [← hview, ← hspace]
    exact hsame' i hlt fun op' hop => hops op' (mem_cons_of_mem op hop)

/-- After any run of forks, stores and frees, also with pages in common, a space shows the same
bytes for as long as only others store and free, whatever is forked meanwhile. -/
theorem space_isolated {s₀ : Memory} {ops ops' : List Op} (hboot : Unshared s₀)
    (hfit : Along step CountsFit s₀ ops) (hrun : run step s₀ ops = some s)
    (hfit' : Along step CountsFit s ops') (hrun' : run step s ops' = some s')
    (hforeign : ∀ op ∈ ops', op.Foreign i) (hr : s.spaces[i]? = some cr3)
    (hlow : (tableIndex virt 39).val < 256) :
    s'.spaces[i]? = some cr3 ∧ byteAt s'.vm cr3 virt = byteAt s.vm cr3 virt := by
  obtain ⟨held, hstart⟩ := hboot.refines
  obtain ⟨t, h, -⟩ := hstart.run_foreign hfit hrun
  obtain ⟨t', h', hsame⟩ := h.run_foreign hfit' hrun'
  have hlt : i < t.length := h.length ▸ (List.getElem?_eq_some_iff.mp hr).1
  have hspace := getElem?_eq_getElem hlt
  obtain ⟨hview, hroot⟩ := hsame i hlt hforeign
  rw [hspace] at hview
  rw [hr] at hroot
  exact ⟨hroot, (h'.byteAt hroot hview hlow).trans (h.byteAt hr hspace hlow).symm⟩

/-- After a fork the child stores to the page that it shares with the first space. -/
theorem space_isolated_child : ∃ s s', run step smallMemory [.fork 0] = some s ∧
    run step s [.write 1 0 1] = some s' ∧
    byteAt s'.vm 0x100000 0 = byteAt s.vm 0x100000 0 := by
  obtain ⟨hboot, -⟩ := smallMemory_spec
  obtain ⟨s, vm, hfork, hhead, hwrite⟩ := smallMemory_child
  have hfit : Along step CountsFit smallMemory [.fork 0] :=
    ⟨fun x => lt_of_le_of_lt (hboot.once x) (by decide), fun _ _ => trivial⟩
  have hfit' : Along step CountsFit s [.write 1 0 1] := ⟨trivial, fun _ _ => trivial⟩
  exact ⟨s, _, hfork, hwrite, (space_isolated (i := 0) hboot hfit hfork hfit' hwrite
    (by simp [Op.Foreign]) hhead (by decide)).2⟩

end Isolation

end Crius.Process.ForkMemory
