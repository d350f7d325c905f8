import Crius.Lib.Chain

/-!
# Intrusive doubly linked lists

Successor and predecessor fields in a set of nodes, and a head. `Linked` is what the two
fields owe each other: each successor points back and each predecessor points forward. It
does not say that all nodes are on the list that starts at the head; nodes that the head
does not reach form lists of their own. `Inserted` and `Removed` are the edits of the usual
insertion at the head and removal of a node, as they read at the nodes.
-/
namespace Crius.Lib.DList

open Lib.Chain List Option

variable {α : Type} {next prev next' prev' : α → Option α} {head head' : Option α} {F F' : α → Prop}
  {b : α}

structure Linked (next prev : α → Option α) (head : Option α) (F : α → Prop) : Prop where
  next_ok : ∀ x y, F x → next x = some y → F y ∧ prev y = some x
  prev_ok : ∀ x y, F x → prev x = some y → F y ∧ next y = some x
  head_ok : ∀ x, head = some x → F x ∧ prev x = none

/-- The fields after `b` has been put in front of the head. -/
structure Inserted (next prev next' prev' : α → Option α) (head : Option α) (F : α → Prop)
    (b : α) : Prop where
  next_self : next' b = head
  prev_self : prev' b = none
  next_other : ∀ x, F x → next' x = next x
  prev_head : ∀ x, F x → head = some x → prev' x = some b
  prev_other : ∀ x, F x → head ≠ some x → prev' x = prev x

/-- The fields after `b` has been taken out. -/
structure Removed (next prev next' prev' : α → Option α) (head head' : Option α)
    (F : α → Prop) (b : α) : Prop where
  next_self : next' b = none
  prev_self : prev' b = none
  next_prev : ∀ x, F x → x ≠ b → prev b = some x → next' x = next b
  next_other : ∀ x, F x → x ≠ b → prev b ≠ some x → next' x = next x
  prev_next : ∀ x, F x → x ≠ b → next b = some x → prev' x = prev b
  prev_other : ∀ x, F x → x ≠ b → next b ≠ some x → prev' x = prev x
  head_first : prev b = none → head' = next b
  head_later : prev b ≠ none → head' = head

/-- One direction of a removal; the other one is the same with the fields exchanged. -/
theorem relink (hnext : ∀ x y, F x → next x = some y → F y ∧ prev y = some x) (hb : F b)
    (hself : next' b = none) (hskip : ∀ x, F x → x ≠ b → prev b = some x → next' x = next b)
    (hother : ∀ x, F x → x ≠ b → prev b ≠ some x → next' x = next x)
    (hskip' : ∀ x, F x → x ≠ b → next b = some x → prev' x = prev b)
    (hother' : ∀ x, F x → x ≠ b → next b ≠ some x → prev' x = prev x) (x y : α) (hx : F x)
    (hxy : next' x = some y) : F y ∧ prev' y = some x := by
  by_cases hxb : x = b
  · subst hxb
    rw [hself] at hxy
    cases hxy
  by_cases hpx : prev b = some x
  · -- `x` skips `b`
    rw [hskip x hx hxb hpx] at hxy
    obtain ⟨hy, hyb⟩ := hnext b y hb hxy
    have hne : y ≠ b := by
      rintro rfl
      exact hxb (some.inj (hpx.symm.trans hyb))
    exact ⟨hy, (hskip' y hy hne hxy).trans hpx⟩
  · rw [hother x hx hxb hpx] at hxy
    obtain ⟨hy, hyx⟩ := hnext x y hx hxy
    have hne : y ≠ b := by
      rintro rfl
      exact hpx hyx
    have hny : next b ≠ some y := by
      intro hby
      exact hxb (some.inj (hyx.symm.trans (hnext b y hb hby).2))
    exact ⟨hy, (hother' y hy hne hny).trans hyx⟩

namespace Linked

section

variable (h : Linked next prev head F) {l : List α}

include h

theorem congr (hn : ∀ x, F x → next' x = next x) (hp : ∀ x, F x → prev' x = prev x) :
    Linked next' prev' head F := by
  refine ⟨fun x y hx hxy => ?_, fun x y hx hxy => ?_, fun x hx => ?_⟩
  · rw [hn x hx] at hxy
    obtain ⟨hy, hback⟩ := h.next_ok x y hx hxy
    exact ⟨hy, (hp y hy).trans hback⟩
  · rw [hp x hx] at hxy
    obtain ⟨hy, hforth⟩ := h.prev_ok x y hx hxy
    exact ⟨hy, (hn y hy).trans hforth⟩
  · obtain ⟨hFx, hnone⟩ := h.head_ok x hx
    exact ⟨hFx, (hp x hFx).trans hnone⟩

/-- The same nodes, described in another way. -/
theorem set_congr (hF : ∀ x, F' x ↔ F x) : Linked next prev head F' := by
  obtain rfl : F' = F := funext fun x => propext (hF x)
  exact h

theorem insert (hb : ¬F b) (hi : Inserted next prev next' prev' head F b) :
    Linked next' prev' (some b) (fun x => x = b ∨ F x) := by
  -- the old head is the only node whose predecessor changes, and it had none
  have hback (x y : α) (hx : F x) (hxy : next x = some y) : prev' y = some x := by
    obtain ⟨hy, hyx⟩ := h.next_ok x y hx hxy
    rw [hi.prev_other y hy]
    · exact hyx
    · intro hhead
      rw [(h.head_ok y hhead).2] at hyx
      cases hyx
  refine ⟨?_, ?_, ?_⟩
  · rintro x y (rfl | hx) hxy
    · rw [hi.next_self] at hxy
      have hy := (h.head_ok y hxy).1
      exact ⟨.inr hy, hi.prev_head y hy hxy⟩
    · rw [hi.next_other x hx] at hxy
      exact ⟨.inr (h.next_ok x y hx hxy).1, hback x y hx hxy⟩
  · rintro x y (rfl | hx) hxy
    · rw [hi.prev_self] at hxy
      cases hxy
    · by_cases hhead : head = some x
      · rw [hi.prev_head x hx hhead] at hxy
        obtain rfl := some.inj hxy
        exact ⟨.inl rfl, hi.next_self.trans hhead⟩
      · rw [hi.prev_other x hx hhead] at hxy
        obtain ⟨hy, hyx⟩ := h.prev_ok x y hx hxy
        exact ⟨.inr hy, (hi.next_other y hy).trans hyx⟩
  · intro x hx
    obtain rfl := some.inj hx
    exact ⟨.inl rfl, hi.prev_self⟩

theorem remove (hb : F b) (hr : Removed next prev next' prev' head head' F b) :
    Linked next' prev' head' F ∧ head' ≠ some b := by
  have hhead : head' ≠ some b := by
    intro hh
    by_cases hp : prev b = none
    · rw [hr.head_first hp] at hh
      rw [(h.next_ok b b hb hh).2] at hp
      cases hp
    · rw [hr.head_later hp] at hh
      exact hp (h.head_ok b hh).2
  refine ⟨⟨?_, ?_, ?_⟩, hhead⟩
  · exact relink h.next_ok hb hr.next_self hr.next_prev hr.next_other hr.prev_next hr.prev_other
  · exact relink h.prev_ok hb hr.prev_self hr.prev_next hr.prev_other hr.next_prev hr.next_other
  · intro x hx
    have hxb : x ≠ b := by
      rintro rfl
      exact hhead hx
    by_cases hp : prev b = none
    · rw [hr.head_first hp] at hx
      obtain ⟨hFx, -⟩ := h.next_ok b x hb hx
      exact ⟨hFx, (hr.prev_next x hFx hxb hx).trans hp⟩
    · rw [hr.head_later hp] at hx
      obtain ⟨hFx, hnone⟩ := h.head_ok x hx
      refine ⟨hFx, ?_⟩
      rw [hr.prev_other x hFx hxb]
      · exact hnone
      · intro hnx
        rw [(h.next_ok b x hb hnx).2] at hnone
        cases hnone

/-- A node without neighbours may leave the set. -/
theorem drop (hn : next b = none) (hp : prev b = none) (hhead : head ≠ some b) :
    Linked next prev head (fun x => x ≠ b ∧ F x) := by
  refine ⟨?_, ?_, ?_⟩
  · rintro x y ⟨-, hx⟩ hxy
    obtain ⟨hy, hyx⟩ := h.next_ok x y hx hxy
    refine ⟨⟨?_, hy⟩, hyx⟩
    rintro rfl
    rw [hp] at hyx
    cases hyx
  · rintro x y ⟨-, hx⟩ hxy
    obtain ⟨hy, hyx⟩ := h.prev_ok x y hx hxy
    refine ⟨⟨?_, hy⟩, hyx⟩
    rintro rfl
    rw [hn] at hyx
    cases hyx
  · intro x hx
    refine ⟨⟨?_, (h.head_ok x hx).1⟩, (h.head_ok x hx).2⟩
    rintro rfl
    exact hhead hx

/-- Every node of a chain from the head is a node of the set. -/
theorem chain_mem (hl : IsChain next head l) : ∀ x ∈ l, F x := by
  have hstart (start : Option α) (hs : ∀ x, start = some x → F x) (l : List α)
      (hl : IsChain next start l) : ∀ x ∈ l, F x := by
    induction l generalizing start with
    | nil =>
      intro x hx
      cases hx
    | cons a l ih =>
      have ha := hs a hl.1
      have hrest := ih (next a) (fun x hx => (h.next_ok a x ha hx).1) hl.2
      intro x hx
      rcases mem_cons.mp hx with rfl | hx
      · exact ha
      · exact hrest x hx
  exact hstart head (fun x hx => (h.head_ok x hx).1) l hl

theorem chain_insert (hl : IsChain next head l) (hi : Inserted next prev next' prev' head F b) :
    IsChain next' (some b) (b :: l) := by
  refine ⟨rfl, ?_⟩
  rw [hi.next_self]
  exact isChain_congr (fun x hx => hi.next_other x (h.chain_mem hl x hx)) hl

/-- The predecessor of a node on the chain, read off the list. -/
theorem chain_prev {l1 l2 : List α} {p x : α} (hl : IsChain next head (l1 ++ p :: x :: l2)) :
    prev x = some p := by
  have hp : F p := h.chain_mem hl p (by simp)
  have hsuffix := isChain_suffix hl
  exact (h.next_ok p x hp hsuffix.2.1).2

theorem chain_remove [DecidableEq α] (hl : IsChain next head l) (hb : b ∈ l)
    (hr : Removed next prev next' prev' head head' F b) : IsChain next' head' (l.erase b) := by
  have hmem := h.chain_mem hl
  have hnodup := isChain_nodup hl
  obtain ⟨l1, l2, rfl⟩ := append_of_mem hb
  have hnot : b ∉ l1 ∧ b ∉ l2 := by
    have := nodup_middle.mp hnodup
    simpa using (nodup_cons.mp this).1
  rw [erase_append_right _ hnot.1, erase_cons_head]
  -- either `b` is the first node, or its predecessor on the list skips it
  rcases eq_nil_or_concat l1 with rfl | ⟨l1, p, rfl⟩
  · rw [nil_append] at hl hmem ⊢
    have hfirst : prev b = none := (h.head_ok b hl.1).2
    rw [hr.head_first hfirst]
    refine isChain_congr (fun x hx => hr.next_other x (hmem x (by simp [hx])) ?_ ?_) hl.2
    · rintro rfl
      exact hnot.2 hx
    · rw [hfirst]
      exact (some_ne_none x).symm
  · rw [concat_eq_append, append_assoc, singleton_append] at hl ⊢
    rw [concat_eq_append] at hmem hnodup hnot
    have hprev := h.chain_prev hl
    have hpb : p ≠ b := by
      rintro rfl
      exact hnot.1 (by simp)
    rw [hr.head_later (by rw [hprev]; exact some_ne_none p)]
    refine isChain_unlink hl (hr.next_prev p (hmem p (by simp)) hpb hprev) fun x hx => ?_
    have hxF : F x := by
      refine hmem x ?_
      simp only [mem_append, mem_cons] at hx ⊢
      tauto
    refine hr.next_other x hxF ?_ ?_
    · rintro rfl
      rcases mem_append.mp hx with hx | hx
      · exact hnot.1 (by simp [hx])
      · exact hnot.2 hx
    · intro hpx
      cases hprev.symm.trans hpx
      -- `p` occurs once
      have hcount : (l1 ++ p :: b :: l2).Nodup := isChain_nodup hl
      rw [nodup_append] at hcount
      rcases mem_append.mp hx with hx | hx
      · exact hcount.2.2 p hx p (by simp) rfl
      · have := (nodup_cons.mp hcount.2.1).1
        exact this (by simp [hx])

/-- Read backwards, the path from the head to a node is a chain of predecessors. -/
theorem chain_back (hl : IsChain next head l) : IsChain prev l.getLast? l.reverse := by
  have hpath (seen l : List α) (from_ : Option α) (hseen : IsChain prev seen.head? seen)
      (hmem : ∀ x ∈ seen, F x)
      (hlast : ∀ y, from_ = some y → F y ∧ prev y = seen.head?) (hl : IsChain next from_ l) :
      IsChain prev (l.reverse ++ seen).head? (l.reverse ++ seen) := by
    induction l generalizing seen from_ with
    | nil => simpa using hseen
    | cons a l ih =>
      obtain ⟨ha, hback⟩ := hlast a hl.1
      have hnext := ih (a :: seen) (next a) ⟨rfl, by rw [hback]; exact hseen⟩
        (by simpa [ha] using hmem) (fun y hy => h.next_ok a y ha hy) hl.2
      simpa using hnext
  have hall := hpath [] l head rfl (by simp) (fun y hy => h.head_ok y hy) hl
  simpa using hall

/-- A head that has no predecessor starts a list that ends, if the nodes are finitely
many: the path cannot come back to a node that it has seen. -/
theorem exists_chain (nodes : List α) (hF : ∀ x, F x → x ∈ nodes) : ∃ l, IsChain next head l := by
  classical
  have hpath (n : Nat) (seen : List α) (from_ : Option α) (hseen : IsChain prev seen.head? seen)
      (hmem : ∀ x ∈ seen, F x) (hlast : ∀ y, from_ = some y → F y ∧ prev y = seen.head?)
      (hn : nodes.length ≤ n + seen.length) : ∃ l, IsChain next from_ l := by
    induction n generalizing seen from_ with
    | zero =>
      cases from_ with
      | none => exact ⟨[], rfl⟩
      | some y =>
        -- one more node would make the path longer than the list of all nodes
        obtain ⟨hy, hback⟩ := hlast y rfl
        have hlonger : IsChain prev (some y) (y :: seen) := ⟨rfl, by rw [hback]; exact hseen⟩
        have hsub : (y :: seen).Subperm nodes := by
          refine subperm_of_subset (isChain_nodup hlonger) fun x hx => hF x ?_
          rcases mem_cons.mp hx with rfl | hx
          · exact hy
          · exact hmem x hx
        have hlen := hsub.length_le
        rw [length_cons] at hlen
        omega
    | succ n ih =>
      cases from_ with
      | none => exact ⟨[], rfl⟩
      | some y =>
        obtain ⟨hy, hback⟩ := hlast y rfl
        obtain ⟨l, hl⟩ := ih (y :: seen) (next y) ⟨rfl, by rw [hback]; exact hseen⟩
          (by simpa [hy] using hmem) (fun z hz => h.next_ok y z hy hz)
          (by rw [length_cons]; omega)
        exact ⟨y :: l, rfl, hl⟩
  exact hpath nodes.length [] head rfl (by simp) (fun y hy => h.head_ok y hy) (by simp)

end

end Linked

/-- The list that starts at the head visits every node of the set. -/
def Complete (next : α → Option α) (head : Option α) (F : α → Prop) : Prop :=
  ∃ l, IsChain next head l ∧ ∀ x, F x → x ∈ l

namespace Complete

section

variable (hc : Complete next head F)

include hc

theorem congr (h : Linked next prev head F) (hn : ∀ x, F x → next' x = next x) :
    Complete next' head F := by
  obtain ⟨l, hl, hall⟩ := hc
  exact ⟨l, isChain_congr (fun x hx => hn x (h.chain_mem hl x hx)) hl, hall⟩

theorem set_congr (hF : ∀ x, F' x ↔ F x) : Complete next head F' := by
  obtain ⟨l, hl, hall⟩ := hc
  exact ⟨l, hl, fun x hx => hall x ((hF x).mp hx)⟩

theorem insert (h : Linked next prev head F) (hi : Inserted next prev next' prev' head F b) :
    Complete next' (some b) (fun x => x = b ∨ F x) := by
  obtain ⟨l, hl, hall⟩ := hc
  refine ⟨b :: l, h.chain_insert hl hi, ?_⟩
  rintro x (rfl | hx)
  · exact mem_cons_self
  · exact mem_cons_of_mem b (hall x hx)

theorem remove (h : Linked next prev head F) (hb : F b)
    (hr : Removed next prev next' prev' head head' F b) :
    Complete next' head' (fun x => x ≠ b ∧ F x) := by
  classical
  obtain ⟨l, hl, hall⟩ := hc
  refine ⟨l.erase b, h.chain_remove hl (hall b hb) hr, ?_⟩
  rintro x ⟨hxb, hx⟩
  exact (mem_erase_of_ne hxb).mpr (hall x hx)

end

end Complete

end Crius.Lib.DList
