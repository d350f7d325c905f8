import Crius.Mm.Forest

/-!
# Copying the tables of a space

`copy_pt`, `copy_pd`, `copy_pdpt` and `vmm_copy_userspace` are loops over the words of a
source table. `Copied` says what such a loop has done after some of the words: the copies of
their tables are new pages, each page that they map has one reference more, and on both sides
each leaf is read-only and marked for copying. Two rounds compose, so that one round of each
kind of loop is all there is to look at.
-/
namespace Crius.Mm

open Lib Function List Radix Vm Nat

variable {ℓ d : ℕ} {vm vm₁ vm' : Vm} {dst src x : Addr} {i : Fin 512} {is is' : List (Fin 512)}
  {new new' : List Addr} {ok ok' : Bool}

/-- How often `x` is a table under the words `is` of a table. -/
def tablesUnder (mem : Addr → Page) (ℓ : ℕ) (t : Addr) (is : List (Fin 512)) (x : Addr) : ℕ :=
  (is.map fun i => Radix.tableCount shape mem ℓ (mem t i) x).sum

/-- The number of leaves under the words `is` of a table that map `x`. -/
def leavesUnder (mem : Addr → Page) (ℓ : ℕ) (t : Addr) (is : List (Fin 512)) (x : Addr) : ℕ :=
  (is.map fun i => Radix.leafCount shape mem ℓ (mem t i) x).sum

/-- The words of a table of level `ℓ` that belong to the space. -/
def indices (ℓ : ℕ) : List (Fin 512) := (List.finRange 512).filter (· ∈ shape.seen ℓ)

/-- The word is as it was, or what `copy_pt` makes of it. -/
def Cowed (w w' : Word) : Prop := w' = w ∨ present w = true ∧ w' = cowEntry w

namespace Cowed

variable {w w' w'' : Word}

theorem live (h : Cowed w w') : present w' = present w := by
  rcases h with rfl | ⟨-, rfl⟩
  · rfl
  · exact present_cowEntry w

theorem table (h : Cowed w w') : tableAddr w' = tableAddr w := by
  rcases h with rfl | ⟨-, rfl⟩
  · rfl
  · exact tableAddr_cowEntry w

theorem frame (h : Cowed w w') : leafAddr w' = leafAddr w := by
  rcases h with rfl | ⟨-, rfl⟩
  · rfl
  · exact leafAddr_cowEntry w

theorem trans (h : Cowed w w') (h' : Cowed w' w'') : Cowed w w'' := by
  rcases h' with rfl | ⟨hp', rfl⟩
  · exact h
  · rcases h with rfl | ⟨hp, rfl⟩
    · exact .inr ⟨hp', rfl⟩
    · exact .inr ⟨hp, cowEntry_cowEntry w⟩

end Cowed

/-! ## The words of a table -/

section Under

variable {mem mem' : Addr → Page} {t : Addr}

theorem mem_indices : i ∈ indices ℓ ↔ i ∈ shape.seen ℓ := by
  simp [indices]

theorem tablesUnder_append : tablesUnder mem ℓ t (is ++ is') x =
    tablesUnder mem ℓ t is x + tablesUnder mem ℓ t is' x := by
  rw [tablesUnder, map_append, List.sum_append]
  rfl

theorem leavesUnder_append : leavesUnder mem ℓ t (is ++ is') x =
    leavesUnder mem ℓ t is x + leavesUnder mem ℓ t is' x := by
  rw [leavesUnder, map_append, List.sum_append]
  rfl

theorem tablesUnder_singleton : tablesUnder mem ℓ t [i] x =
    tableCount shape mem ℓ (mem t i) x := by
  simp [tablesUnder]

theorem leavesUnder_singleton : leavesUnder mem ℓ t [i] x =
    leafCount shape mem ℓ (mem t i) x := by
  simp [leavesUnder]

theorem tablesUnder_pos {k : ℕ} (hi : i ∈ is) (hb : Radix.Below shape mem ℓ (mem t i) x k) :
    0 < tablesUnder mem ℓ t is x := by
  have hpos := tableCount_pos.mpr ⟨k, hb⟩
  have hle := le_sum_of_mem
    (mem_map_of_mem (f := fun i => tableCount shape mem ℓ (mem t i) x) hi)
  exact lt_of_lt_of_le hpos hle

theorem tablesUnder_blank (h : ∀ i ∈ is, present (mem t i) = false) (x : Addr) :
    tablesUnder mem ℓ t is x = 0 := by
  refine sum_eq_zero fun n hn => ?_
  obtain ⟨i, hi, rfl⟩ := mem_map.mp hn
  exact weight_dead (h i hi)

theorem leavesUnder_blank (h : ∀ i ∈ is, present (mem t i) = false) (x : Addr) :
    leavesUnder mem ℓ t is x = 0 := by
  refine sum_eq_zero fun n hn => ?_
  obtain ⟨i, hi, rfl⟩ := mem_map.mp hn
  exact weight_dead (h i hi)

/-- The trees under the words `is` of `t` are the same in both memories. -/
structure SameUnder (mem mem' : Addr → Page) (t : Addr) (is : List (Fin 512)) (ℓ : ℕ) : Prop where
  word : ∀ i ∈ is, mem' t i = mem t i
  tables : ∀ x, 0 < tablesUnder mem ℓ t is x → mem' x = mem x

namespace SameUnder

variable (h : SameUnder mem mem' t is ℓ)

include h

theorem tablesUnder (x : Addr) : tablesUnder mem' ℓ t is x = tablesUnder mem ℓ t is x := by
  refine congrArg sum (map_congr_left fun i hi => ?_)
  rw [h.word i hi]
  exact weight_congr fun y k hb => h.tables y (tablesUnder_pos hi hb)

theorem leavesUnder (x : Addr) : leavesUnder mem' ℓ t is x = leavesUnder mem ℓ t is x := by
  refine congrArg sum (map_congr_left fun i hi => ?_)
  rw [h.word i hi]
  exact weight_congr fun y k hb => h.tables y (tablesUnder_pos hi hb)

theorem find (hi : i ∈ is) (p : List (Fin 512)) :
    find shape mem' ℓ (mem' t i) p = find shape mem ℓ (mem t i) p := by
  rw [h.word i hi]
  exact find_congr (fun y k hb => h.tables y (tablesUnder_pos hi hb)) p

end SameUnder

/-- Editing the words in place keeps the tables. -/
theorem tablesUnder_edit (hword : ∀ i, Cowed (mem t i) (mem' t i))
    (hedit : ∀ x, 0 < tablesUnder mem ℓ t is x → ∀ j, Cowed (mem x j) (mem' x j)) (x : Addr) :
    tablesUnder mem' ℓ t is x = tablesUnder mem ℓ t is x := by
  refine congrArg sum (map_congr_left fun i hi => ?_)
  exact Radix.Edit.weight (fun _ _ => Cowed.live) (fun _ _ => Cowed.table) (fun _ _ _ => rfl)
    (fun y k hb => hedit y (tablesUnder_pos hi hb)) (hword i)

/-- The tables under a word, from the words of its table. -/
theorem tableCount_succ (mem : Addr → Page) (ℓ : ℕ) {e : Word} (he : present e = true) (x : Addr) :
    tableCount shape mem (ℓ + 1) e x =
      (if tableAddr e = x then 1 else 0) + tablesUnder mem ℓ (tableAddr e) (indices ℓ) x := by
  rw [tableCount, weight_succ_live he, sum_seen]
  rfl

theorem leafCount_succ {e : Word} (he : present e = true) (x : Addr) :
    leafCount shape mem (ℓ + 1) e x = leavesUnder mem ℓ (tableAddr e) (indices ℓ) x := by
  rw [leafCount, weight_succ_live he, sum_seen, zero_add]
  rfl

/-- The leaves under a word, from the words of its table. -/
theorem find_succ_map {e e' : Word} {f : Word → Word} (he : present e = true)
    (he' : present e' = true)
    (h : ∀ i ∈ indices ℓ, ∀ p, find shape mem' ℓ (mem' (tableAddr e') i) p =
      (find shape mem ℓ (mem (tableAddr e) i) p).map f) (p : List (Fin 512)) :
    find shape mem' (ℓ + 1) e' p = (find shape mem (ℓ + 1) e p).map f := by
  cases p with
  | nil => rfl
  | cons i p =>
    by_cases hi : i ∈ shape.seen ℓ
    · rw [find_live he' hi, find_live he hi]
      exact h i (mem_indices.mpr hi) p
    · rw [find_eq_none fun h => hi h.2, find_eq_none fun h => hi h.2]
      rfl

end Under

/-! ## Rounds -/

/-- How often `x` is the source, the destination, or a table that is still to be copied. -/
def claims (mem : Addr → Page) (ℓ : ℕ) (dst src : Addr) (is : List (Fin 512)) (x : Addr) : ℕ :=
  (if src = x then 1 else 0) + (if dst = x then 1 else 0) + tablesUnder mem ℓ src is x

/-- What the rounds for the words `is` of `src` start from. -/
structure Ready (ℓ : ℕ) (vm : Vm) (dst src : Addr) (is : List (Fin 512)) : Prop where
  ok : vm.pmm.Ok
  apart : ∀ x, claims vm.mem ℓ dst src is x ≤ 1
  used : ∀ x, 0 < claims vm.mem ℓ dst src is x → vm.pmm.InUse x
  blank : ∀ i ∈ is, present (vm.mem dst i) = false
  leaves : ∀ x, 0 < leavesUnder vm.mem ℓ src is x → vm.pmm.InUse x

/-- What the rounds for the words `is` of `src` have done. -/
structure Copied (ℓ : ℕ) (vm : Vm) (dst src : Addr) (is : List (Fin 512)) (new : List Addr)
    (ok : Bool) (vm' : Vm) : Prop where
  grown : Grown vm.pmm new (leavesUnder vm'.mem ℓ dst is) vm'.pmm
  tables : ∀ x, tablesUnder vm'.mem ℓ dst is x = new.count x
  leaves : ∀ x, leavesUnder vm'.mem ℓ dst is x ≤ leavesUnder vm.mem ℓ src is x
  others : ∀ j ∉ is, vm'.mem dst j = vm.mem dst j ∧ vm'.mem src j = vm.mem src j
  upper : 0 < ℓ → vm'.mem src = vm.mem src
  edit : ∀ x, vm.pmm.InUse x → x ≠ dst → ∀ j, Cowed (vm.mem x j) (vm'.mem x j)
  frame : ∀ x, vm.pmm.InUse x → x ≠ dst → x ≠ src → tablesUnder vm.mem ℓ src is x = 0 →
    vm'.mem x = vm.mem x
  found : ok = true → ∀ i ∈ is, ∀ p,
    Radix.find shape vm'.mem ℓ (vm'.mem dst i) p =
        (Radix.find shape vm.mem ℓ (vm.mem src i) p).map cowEntry ∧
      Radix.find shape vm'.mem ℓ (vm'.mem src i) p =
        (Radix.find shape vm.mem ℓ (vm.mem src i) p).map cowEntry

namespace Ready

section

variable (h : Ready ℓ vm dst src is)

include h

theorem src_used : vm.pmm.InUse src :=
  h.used src (by rw [claims, if_pos rfl]; omega)

theorem dst_used : vm.pmm.InUse dst :=
  h.used dst (by rw [claims, if_pos (rfl : dst = dst)]; omega)

theorem src_ne : src ≠ dst := by
  rintro rfl
  have := h.apart src
  rw [claims, if_pos rfl] at this
  omega

/-- A table that is still to be copied is in use, and neither the source nor the destination. -/
theorem table (hx : 0 < tablesUnder vm.mem ℓ src is x) : vm.pmm.InUse x ∧ x ≠ dst ∧ x ≠ src := by
  have hone := h.apart x
  refine ⟨h.used x (by rw [claims]; omega), ?_, ?_⟩
  · rintro rfl
    rw [claims, if_pos (rfl : x = x)] at hone
    omega
  · rintro rfl
    rw [claims, if_pos rfl] at hone
    omega

end

theorem left (h : Ready ℓ vm dst src (is ++ is')) : Ready ℓ vm dst src is := by
  refine ⟨h.ok, fun x => ?_, fun x hx => h.used x ?_, fun i hi => h.blank i ?_,
    fun x hx => h.leaves x ?_⟩
  · have := h.apart x
    rw [claims, tablesUnder_append] at this
    rw [claims]
    omega
  · rw [claims] at hx
    rw [claims, tablesUnder_append]
    omega
  · exact mem_append_left _ hi
  · rw [leavesUnder_append]
    omega

end Ready

namespace Copied

/-- Nothing has been done: there is nothing to copy, or the first table could not be made. -/
theorem nothing (h : Ready ℓ vm dst src is)
    (hok : ok = true → ∀ i ∈ is, present (vm.mem src i) = false) :
    Copied ℓ vm dst src is [] ok vm := by
  have hleaves : leavesUnder vm.mem ℓ dst is = fun _ => 0 := funext (leavesUnder_blank h.blank)
  refine ⟨?_, tablesUnder_blank h.blank, fun x => ?_, fun j _ => ⟨rfl, rfl⟩, fun _ => rfl,
    fun x _ _ j => .inl rfl, fun x _ _ _ _ => rfl, fun htrue i hi p => ?_⟩
  · rw [hleaves]
    exact .refl h.ok
  · rw [hleaves]
    exact zero_le _
  · rw [find_dead (h.blank i hi), find_dead (hok htrue i hi)]
    exact ⟨rfl, rfl⟩

section

variable (h : Ready ℓ vm dst src (is ++ is'))

include h

section

variable (hnodup : (is ++ is').Nodup) (hc : Copied ℓ vm dst src is new ok vm₁)

include hnodup hc

/-- The rounds that are still to come find their words and tables as they were. -/
theorem rest : SameUnder vm.mem vm₁.mem src is' ℓ := by
  have hdisj := disjoint_of_nodup_append hnodup
  refine ⟨fun i hi => (hc.others i fun hi' => hdisj hi' hi).2, fun x hx => ?_⟩
  have hone := h.apart x
  have happ : tablesUnder vm.mem ℓ src (is ++ is') x = _ := tablesUnder_append
  obtain ⟨hused, hdst, hsrc⟩ := h.table (x := x) (by omega)
  rw [claims] at hone
  exact hc.frame x hused hdst hsrc (by omega)

theorem ready : Ready ℓ vm₁ dst src is' := by
  have hrest := hc.rest h hnodup
  have hclaims (x : Addr) : claims vm₁.mem ℓ dst src is' x ≤ claims vm.mem ℓ dst src (is ++ is') x := by
    rw [claims, claims, hrest.tablesUnder, tablesUnder_append]
    omega
  refine ⟨hc.grown.ok, fun x => (hclaims x).trans (h.apart x), fun x hx => ?_, fun i hi => ?_,
    fun x hx => ?_⟩
  · exact hc.grown.inUse (h.used x (lt_of_lt_of_le hx (hclaims x)))
  · have hi' : i ∉ is := fun hi' => disjoint_of_nodup_append hnodup hi' hi
    rw [(hc.others i hi').1]
    exact h.blank i (mem_append_right _ hi)
  · rw [hrest.leavesUnder] at hx
    refine hc.grown.inUse (h.leaves x ?_)
    rw [leavesUnder_append]
    omega

/-- Rounds after rounds. -/
theorem append (hc' : Copied ℓ vm₁ dst src is' new' ok' vm') (hok : ok' = true → ok = true) :
    Copied ℓ vm dst src (is ++ is') (new ++ new') ok' vm' := by
  have hdisj := disjoint_of_nodup_append hnodup
  have hrest := hc.rest h hnodup
  -- the copies that were made first are not touched again
  have hcopies : SameUnder vm₁.mem vm'.mem dst is ℓ := by
    refine ⟨fun i hi => (hc'.others i fun hi' => hdisj hi hi').1, fun x hx => ?_⟩
    rw [hc.tables] at hx
    have hnew := count_pos_iff.mp hx
    have hne {y : Addr} (hy : vm.pmm.InUse y) : x ≠ y := by
      rintro rfl
      exact hc.grown.not_mem_new hy hnew
    refine hc'.frame x (hc.grown.inUse_new hnew) (hne h.dst_used) (hne h.src_used) ?_
    by_contra hpos
    rw [hrest.tablesUnder] at hpos
    refine hne (h.table ?_).1 rfl
    rw [tablesUnder_append]
    omega
  -- nor are the words that they were made from
  have hsources : SameUnder vm₁.mem vm'.mem src is ℓ := by
    refine ⟨fun i hi => (hc'.others i fun hi' => hdisj hi hi').2, fun x hx => ?_⟩
    have hleft := h.left
    rw [tablesUnder_edit (hc.edit src h.src_used h.src_ne) fun y hy =>
      hc.edit y (hleft.table hy).1 (hleft.table hy).2.1] at hx
    obtain ⟨hused, hdst, hsrc⟩ := hleft.table hx
    refine hc'.frame x (hc.grown.inUse hused) hdst hsrc ?_
    have hone := h.apart x
    rw [claims, tablesUnder_append] at hone
    rw [hrest.tablesUnder]
    omega
  have hadd : leavesUnder vm'.mem ℓ dst (is ++ is') = fun x =>
      leavesUnder vm₁.mem ℓ dst is x + leavesUnder vm'.mem ℓ dst is' x := by
    funext x
    rw [leavesUnder_append, hcopies.leavesUnder]
  refine ⟨?_, fun x => ?_, fun x => ?_, fun j hj => ?_, fun hpos => ?_, fun x hx hne j => ?_,
    fun x hx hdst hsrc hzero => ?_, fun htrue i hi p => ?_⟩
  · rw [hadd]
    refine hc.grown.trans hc'.grown fun x hx => ?_
    by_contra hpos
    have hle := hc'.leaves x
    rw [hrest.leavesUnder] at hle
    refine hc.grown.not_mem_new (h.leaves x ?_) hx
    rw [leavesUnder_append]
    omega
  · rw [tablesUnder_append, hcopies.tablesUnder, hc.tables, hc'.tables, count_append]
  · have hle := hc.leaves x
    have hle' := hc'.leaves x
    rw [hrest.leavesUnder] at hle'
    rw [hadd, leavesUnder_append]
    dsimp only
    omega
  · rw [mem_append, not_or] at hj
    obtain ⟨hd, hs⟩ := hc.others j hj.1
    obtain ⟨hd', hs'⟩ := hc'.others j hj.2
    exact ⟨hd'.trans hd, hs'.trans hs⟩
  · exact (hc'.upper hpos).trans (hc.upper hpos)
  · exact (hc.edit x hx hne j).trans (hc'.edit x (hc.grown.inUse hx) hne j)
  · rw [tablesUnder_append] at hzero
    have hzero' : tablesUnder vm₁.mem ℓ src is' x = 0 := by
      rw [hrest.tablesUnder]
      omega
    rw [hc'.frame x (hc.grown.inUse hx) hdst hsrc hzero']
    exact hc.frame x hx hdst hsrc (by omega)
  · rcases mem_append.mp hi with hi | hi
    · rw [hcopies.find hi, hsources.find hi]
      exact hc.found (hok htrue) i hi p
    · rw [← hrest.find hi]
      exact hc'.found htrue i hi p

end

end

end Copied

/-! ## One round -/

/-- A leaf becomes shared. -/
theorem leaf_copied (h : Ready 0 vm dst src [i]) (hp : present (vm.mem src i) = true)
    (hpmm : vm'.pmm = pmmIncref vm.pmm (leafAddr (vm.mem src i)))
    (hdst : vm'.mem dst = update (vm.mem dst) i (cowEntry (vm.mem src i)))
    (hsrc : vm'.mem src = update (vm.mem src) i (cowEntry (vm.mem src i)))
    (hothers : ∀ x, x ≠ dst → x ≠ src → vm'.mem x = vm.mem x) :
    Copied 0 vm dst src [i] [] true vm' := by
  have hcount (e : Word) (he : present e = true) (x : Addr) :
      leafCount shape vm.mem 0 e x = if leafAddr e = x then 1 else 0 :=
    weight_zero_live he
  have hsame (mem : Addr → Page) (e : Word) (x : Addr) : leafCount shape mem 0 e x =
      leafCount shape vm.mem 0 e x := rfl
  have hm : vm.pmm.Managed (leafAddr (vm.mem src i)) := by
    refine (h.leaves _ ?_).1
    rw [leavesUnder_singleton, hcount _ hp, if_pos rfl]
    exact one_pos
  have hleaves (x : Addr) : leavesUnder vm'.mem 0 dst [i] x =
      if leafAddr (vm.mem src i) = x then 1 else 0 := by
    rw [leavesUnder_singleton, hdst, update_self, hsame,
      hcount _ (by rw [present_cowEntry, hp]), leafAddr_cowEntry]
  refine ⟨?_, fun x => ?_, fun x => ?_, fun j hj => ?_, nofun, fun x _ hd j => ?_,
    fun x _ hd hs _ => hothers x hd hs, fun _ j hj p => ?_⟩
  · rw [hpmm, funext hleaves]
    exact Grown.incref h.ok hm
  · rw [tablesUnder_singleton]
    exact ite_self 0
  · rw [hleaves, leavesUnder_singleton, hcount _ hp]
  · rw [mem_singleton] at hj
    rw [hdst, hsrc, update_of_ne hj, update_of_ne hj]
    exact ⟨rfl, rfl⟩
  · by_cases hs : x = src
    · rw [hs, hsrc]
      by_cases hj : j = i
      · rw [hj, update_self]
        exact .inr ⟨hp, rfl⟩
      · rw [update_of_ne hj]
        exact .inl rfl
    · rw [hothers x hd hs]
      exact .inl rfl
  · rw [mem_singleton.mp hj, hdst, hsrc, update_self, update_self]
    cases p with
    | nil => simp [find, hp]
    | cons j p => exact ⟨rfl, rfl⟩

/-- One round of `copy_pt`. -/
theorem copyPte_copied (h : Ready 0 vm dst src [i]) :
    Copied 0 vm dst src [i] [] true (copyPte dst src vm i) := by
  unfold copyPte
  by_cases hp : present (vm.mem src i) = true
  · have hne := h.src_ne
    rw [if_pos hp]
    refine leaf_copied h hp rfl ?_ ?_ fun x hd hs => ?_
    · rw [incref_mem, write_mem_of_ne _ hne.symm, write_mem_self]
    · rw [incref_mem, write_mem_self, write_mem_of_ne _ hne]
    · rw [incref_mem, write_mem_of_ne _ hs, write_mem_of_ne _ hd]
  · rw [if_neg hp]
    refine .nothing h fun _ j hj => ?_
    rw [mem_singleton.mp hj]
    exact Bool.eq_false_of_not_eq_true hp

section Entry

variable {t : Addr} {vm₂ : Vm} (h : Ready (d + 1) vm dst src [i])
  (hp : present (vm.mem src i) = true) (ht : vm.pmm.Taken t vm₁.pmm)
  (hmem : vm₁.mem = Function.update vm.mem t (fun _ => 0))

include ht in
theorem taken_inUse (hx : vm.pmm.InUse x) : vm₁.pmm.InUse x := (Grown.take ht).inUse hx

include ht hmem in
theorem taken_mem (hx : vm.pmm.InUse x) : vm₁.mem x = vm.mem x := by
  rw [hmem, update_of_ne (ht.ne hx)]

include hp in
theorem entry_tables (x : Addr) : tablesUnder vm.mem (d + 1) src [i] x =
    (if tableAddr (vm.mem src i) = x then 1 else 0) +
      tablesUnder vm.mem d (tableAddr (vm.mem src i)) (indices d) x := by
  rw [tablesUnder_singleton, tableCount_succ _ _ hp]

include h hp ht hmem

/-- What the copy of the table under a word starts from: a new table. -/
theorem entry_ready : Ready d vm₁ t (tableAddr (vm.mem src i)) (indices d) ∧
    SameUnder vm.mem vm₁.mem (tableAddr (vm.mem src i)) (indices d) d := by
  have hcount := entry_tables (d := d) hp
  have htable : vm.pmm.InUse (tableAddr (vm.mem src i)) :=
    (h.table (by rw [hcount, if_pos rfl]; omega)).1
  have hsame : SameUnder vm.mem vm₁.mem (tableAddr (vm.mem src i)) (indices d) d :=
    ⟨fun j _ => by rw [taken_mem ht hmem htable],
      fun x hx => taken_mem ht hmem (h.table (by rw [hcount]; omega)).1⟩
  have hclaims (x : Addr) : claims vm₁.mem d t (tableAddr (vm.mem src i)) (indices d) x =
      tablesUnder vm.mem (d + 1) src [i] x + if t = x then 1 else 0 := by
    rw [claims, hsame.tablesUnder, hcount]
    omega
  refine ⟨⟨ht.ok, fun x => ?_, fun x hx => ?_, fun j _ => ?_, fun x hx => ?_⟩, hsame⟩
  · have hone := h.apart x
    rw [claims] at hone
    rw [hclaims]
    split_ifs with htx
    · have hzero : ¬0 < tablesUnder vm.mem (d + 1) src [i] x :=
        fun hpos => ht.ne (h.table hpos).1 htx.symm
      omega
    · omega
  · rw [hclaims] at hx
    split_ifs at hx with htx
    · rw [← htx]
      exact (Grown.take ht).inUse_new mem_cons_self
    · exact taken_inUse ht (h.table hx).1
  · rw [hmem, update_self]
    rfl
  · rw [hsame.leavesUnder] at hx
    refine taken_inUse ht (h.leaves x ?_)
    rw [leavesUnder_singleton, leafCount_succ hp]
    exact hx

/-- One round of the loops over the upper levels. -/
theorem entry_copied (hc : Copied d vm₁ t (tableAddr (vm.mem src i)) (indices d) new ok vm₂) :
    Copied (d + 1) vm dst src [i] (t :: new) ok
      (vm₂.write dst i (linkEntry t (vm₂.mem src i))) := by
  obtain ⟨hready, hsame⟩ := entry_ready h hp ht hmem
  have hcount := entry_tables (d := d) hp
  have hdst := h.dst_used
  have hframe (x : Addr) (hx : vm.pmm.InUse x) (hzero : tablesUnder vm.mem (d + 1) src [i] x = 0) :
      vm₂.mem x = vm.mem x := by
    rw [hcount] at hzero
    have hne : x ≠ tableAddr (vm.mem src i) := by
      rintro rfl
      rw [if_pos rfl] at hzero
      omega
    rw [hc.frame x (taken_inUse ht hx) (ht.ne hx) hne
      (by rw [hsame.tablesUnder]; omega), taken_mem ht hmem hx]
  have hsrc2 : vm₂.mem src = vm.mem src :=
    hframe src h.src_used (Nat.eq_zero_of_not_pos fun hpos => (h.table hpos).2.2 rfl)
  have hdst2 : vm₂.mem dst = vm.mem dst :=
    hframe dst hdst (Nat.eq_zero_of_not_pos fun hpos => (h.table hpos).2.1 rfl)
  rw [hsrc2]
  have htf : IsFrame t := ht.managed.isFrame h.ok
  have hlive : present (linkEntry t (vm.mem src i)) = true := by
    rw [present_linkEntry htf, hp]
  have hpoint : tableAddr (linkEntry t (vm.mem src i)) = t := tableAddr_linkEntry htf _
  generalize hvm' : vm₂.write dst i (linkEntry t (vm.mem src i)) = vm'
  have hself : vm'.mem dst = update (vm.mem dst) i (linkEntry t (vm.mem src i)) := by
    rw [← hvm', write_mem_self, hdst2]
  have hout (x : Addr) (hx : x ≠ dst) : vm'.mem x = vm₂.mem x := by
    rw [← hvm', write_mem_of_ne _ hx]
  have hpmm : vm'.pmm = vm₂.pmm := by rw [← hvm', write_pmm]
  have hword : vm'.mem dst i = linkEntry t (vm.mem src i) := by rw [hself, update_self]
  -- the new tables do not include the destination
  have hcopy : SameUnder vm₂.mem vm'.mem t (indices d) d := by
    refine ⟨fun j _ => by rw [hout t (ht.ne hdst).symm], fun x hx => hout x ?_⟩
    rw [hc.tables] at hx
    rintro rfl
    exact hc.grown.not_mem_new (taken_inUse ht hdst) (count_pos_iff.mp hx)
  have hsource : SameUnder vm₂.mem vm'.mem (tableAddr (vm.mem src i)) (indices d) d := by
    refine ⟨fun j _ => ?_, fun x hx => hout x (h.table ?_).2.1⟩
    · rw [hout _ (h.table (by rw [hcount, if_pos rfl]; omega)).2.1]
    · rw [tablesUnder_edit (hc.edit _ hready.src_used hready.src_ne) fun y hy =>
        hc.edit y (hready.table hy).1 (hready.table hy).2.1, hsame.tablesUnder] at hx
      rw [hcount]
      omega
  have hleaves (x : Addr) : leavesUnder vm'.mem (d + 1) dst [i] x =
      leavesUnder vm₂.mem d t (indices d) x := by
    rw [leavesUnder_singleton, hword, leafCount_succ hlive, hpoint, hcopy.leavesUnder]
  have hsource_leaves (x : Addr) : leavesUnder vm₁.mem d (tableAddr (vm.mem src i)) (indices d) x =
      leavesUnder vm.mem (d + 1) src [i] x := by
    rw [hsame.leavesUnder, leavesUnder_singleton, leafCount_succ hp]
  refine ⟨?_, fun x => ?_, fun x => ?_, fun j hj => ?_, fun _ => ?_, fun x hx hne j => ?_,
    fun x hx hd hs hzero' => ?_, fun htrue j hj p => ?_⟩
  · rw [funext hleaves, hpmm]
    have hgrown := (Grown.take ht).trans hc.grown fun x hx => by
      by_contra hpos
      have hle := hc.leaves x
      rw [hsource_leaves] at hle
      exact ht.ne (h.leaves x (by omega)) (mem_singleton.mp hx)
    simp only [zero_add] at hgrown
    exact hgrown
  · rw [tablesUnder_singleton, hword, tableCount_succ _ _ hlive, hpoint, hcopy.tablesUnder, hc.tables,
      count_cons]
    simp only [beq_iff_eq]
    omega
  · rw [hleaves, ← hsource_leaves]
    exact hc.leaves x
  · rw [mem_singleton] at hj
    rw [hself, update_of_ne hj, hout src h.src_ne, hsrc2]
    exact ⟨rfl, rfl⟩
  · rw [hout src h.src_ne, hsrc2]
  · rw [hout x hne, ← taken_mem ht hmem hx]
    exact hc.edit x (taken_inUse ht hx) (ht.ne hx) j
  · rw [hout x hd, hframe x hx hzero']
  · rw [mem_singleton.mp hj, hword, hout src h.src_ne, hsrc2]
    refine ⟨find_succ_map hp hlive (fun j hj q => ?_) p, find_succ_map hp hp (fun j hj q => ?_) p⟩
    · rw [hpoint, hcopy.find hj, ← hsame.find hj]
      exact (hc.found htrue j hj q).1
    · rw [hsource.find hj, ← hsame.find hj]
      exact (hc.found htrue j hj q).2

end Entry

/-! ## Whole tables -/

/-- What a function that copies a table whose words have level `ℓ` is to do. -/
def CopiesTable (ℓ : ℕ) (copyTable : Addr → Addr → Vm → Bool × Vm) : Prop :=
  ∀ dst src vm ok vm', Ready ℓ vm dst src (indices ℓ) → copyTable dst src vm = (ok, vm') →
    ∃ new, Copied ℓ vm dst src (indices ℓ) new ok vm'

theorem foldl_copyPte_copied (hnodup : is.Nodup) (h : Ready 0 vm dst src is) :
    Copied 0 vm dst src is [] true (is.foldl (copyPte dst src) vm) := by
  induction is generalizing vm with
  | nil => exact .nothing h fun _ => nofun
  | cons i is ih =>
    have hfirst : Copied 0 vm dst src [i] [] true (copyPte dst src vm i) :=
      copyPte_copied (show Ready 0 vm dst src ([i] ++ is) from h).left
    have hrest := ih (nodup_cons.mp hnodup).2 (hfirst.ready h hnodup)
    exact hfirst.append h hnodup hrest id

theorem copyEntries_copied {copyTable : Addr → Addr → Vm → Bool × Vm}
    (hcopy : CopiesTable d copyTable) (hnodup : is.Nodup) (h : Ready (d + 1) vm dst src is)
    (hrun : copyEntries copyTable dst src is vm = (ok, vm')) :
    ∃ new, Copied (d + 1) vm dst src is new ok vm' := by
  induction is generalizing vm with
  | nil =>
    cases hrun
    exact ⟨[], .nothing h fun _ => nofun⟩
  | cons i is ih =>
    have hnodup' := (nodup_cons.mp hnodup).2
    have hleft : Ready (d + 1) vm dst src [i] :=
      (show Ready (d + 1) vm dst src ([i] ++ is) from h).left
    rw [copyEntries] at hrun
    split_ifs at hrun with hp
    · rcases halloc : allocPageTable vm with ⟨t, vm₁⟩
      rw [halloc] at hrun
      rcases allocPageTable_spec h.ok halloc with ⟨rfl, rfl, -⟩ | ⟨t, rfl, htaken, hmem⟩
      · cases hrun
        exact ⟨[], .nothing h nofun⟩
      · dsimp only at hrun
        rw [taken_mem htaken hmem h.src_used] at hrun
        rcases htable : copyTable t (tableAddr (vm.mem src i)) vm₁ with ⟨ok2, vm₂⟩
        rw [htable] at hrun
        obtain ⟨new, hc⟩ := hcopy _ _ _ _ _ (entry_ready hleft hp htaken hmem).1 htable
        have hfirst := entry_copied hleft hp htaken hmem hc
        cases ok2 with
        | false =>
          cases hrun
          have hready : Ready (d + 1) _ dst src is := hfirst.ready h hnodup
          exact ⟨_, hfirst.append h hnodup (.nothing hready nofun) id⟩
        | true =>
          obtain ⟨new', hrest⟩ := ih hnodup' (hfirst.ready h hnodup) hrun
          exact ⟨_, hfirst.append h hnodup hrest fun _ => rfl⟩
    · have hfirst : Copied (d + 1) vm dst src [i] [] true vm := .nothing hleft fun _ j hj => by
        rw [mem_singleton.mp hj]
        exact Bool.eq_false_of_not_eq_true hp
      obtain ⟨new', hrest⟩ := ih hnodup' (hfirst.ready h hnodup) hrun
      exact ⟨_, hfirst.append h hnodup hrest fun _ => rfl⟩

theorem nodup_indices (ℓ : ℕ) : (indices ℓ).Nodup := (nodup_finRange 512).filter _

theorem indices_of_ne (ℓ : ℕ) (hne : ℓ ≠ 3) : indices ℓ = finRange 512 :=
  filter_eq_self.mpr fun i _ => decide_eq_true (mem_seen_of_ne hne i)

theorem indices_three : indices 3 = lowerHalf := by
  refine filter_congr fun i _ => ?_
  simp [mem_seen]

theorem copiesTable_copyPt : CopiesTable 0 copyPt := by
  intro dst src vm ok vm' h hrun
  cases hrun
  rw [← indices_of_ne 0 (by decide)]
  exact ⟨[], foldl_copyPte_copied (nodup_indices 0) h⟩

theorem copiesTable_copyPd : CopiesTable 1 copyPd := by
  intro dst src vm ok vm' h hrun
  rw [copyPd, ← indices_of_ne 1 (by decide)] at hrun
  exact copyEntries_copied copiesTable_copyPt (nodup_indices 1) h hrun

theorem copiesTable_copyPdpt : CopiesTable 2 copyPdpt := by
  intro dst src vm ok vm' h hrun
  rw [copyPdpt, ← indices_of_ne 2 (by decide)] at hrun
  exact copyEntries_copied copiesTable_copyPd (nodup_indices 2) h hrun

theorem copiesTable_vmmCopyUserspace : CopiesTable 3 vmmCopyUserspace := by
  intro dst src vm ok vm' h hrun
  rw [vmmCopyUserspace, ← indices_three] at hrun
  exact copyEntries_copied copiesTable_copyPdpt (nodup_indices 3) h hrun

end Crius.Mm
