import Mathlib.Tactic

/-!
# Intrusive singly linked lists

A list threaded through its own nodes: a head and a successor field for each node.
`IsChain next head l` says that following `next` from `head` visits exactly the nodes
of `l`, in order, and then stops. It is deterministic in the head, so a chain never
visits a node twice.
-/
namespace Crius.Lib.Chain

variable {α : Type*} {next next' : α → Option α} {head : Option α} {l : List α}

def IsChain (next : α → Option α) : Option α → List α → Prop
  | head, [] => head = none
  | head, a :: l => head = some a ∧ IsChain next (next a) l

@[simp] theorem isChain_nil : IsChain next head [] ↔ head = none := Iff.rfl

@[simp] theorem isChain_cons {a : α} {l : List α} :
    IsChain next head (a :: l) ↔ head = some a ∧ IsChain next (next a) l := Iff.rfl

theorem isChain_unique {m : List α} (hl : IsChain next head l) (hm : IsChain next head m) :
    l = m := by
  induction l generalizing head m with
  | nil =>
    cases m with
    | nil => rfl
    | cons b m => rw [isChain_nil] at hl; rw [hl] at hm; exact absurd hm.1 (by simp)
  | cons a l ih =>
    cases m with
    | nil => rw [isChain_nil] at hm; rw [hm] at hl; exact absurd hl.1 (by simp)
    | cons b m =>
      cases hl.1.symm.trans hm.1
      rw [ih hl.2 hm.2]

/-- The part of a chain that starts at one of its nodes. -/
theorem isChain_suffix {p s : List α} {a : α} (h : IsChain next head (p ++ a :: s)) :
    IsChain next (some a) (a :: s) := by
  induction p generalizing head with
  | nil => exact ⟨rfl, h.2⟩
  | cons b p ih => exact ih h.2

theorem isChain_nodup (h : IsChain next head l) : l.Nodup := by
  induction l generalizing head with
  | nil => exact List.nodup_nil
  | cons a l ih =>
    refine List.nodup_cons.mpr ⟨fun ha => ?_, ih h.2⟩
    obtain ⟨p, s, rfl⟩ := List.append_of_mem ha
    -- the suffixes at the two visits of `a` would be chains from the same head
    have he := isChain_unique (isChain_suffix h.2)
      (show IsChain next (some a) (a :: (p ++ a :: s)) from ⟨rfl, h.2⟩)
    have hlen := congrArg List.length he
    simp at hlen
    omega

/-- A chain only reads the successor fields of its own nodes. -/
theorem isChain_congr (hn : ∀ a ∈ l, next' a = next a) (h : IsChain next head l) :
    IsChain next' head l := by
  induction l generalizing head with
  | nil => exact h
  | cons a l ih =>
    refine ⟨h.1, ?_⟩
    rw [hn a List.mem_cons_self]
    exact ih (fun b hb => hn b (List.mem_cons_of_mem a hb)) h.2

theorem isChain_mem_head {a : α} (h : IsChain next (some a) l) : a ∈ l := by
  cases l with
  | nil => exact absurd h (by simp)
  | cons b l => rw [Option.some.inj h.1]; exact List.mem_cons_self

/-- Unlinking the node after `p` by letting `p` skip it. -/
theorem isChain_unlink {l1 l2 : List α} {p x : α} (h : IsChain next head (l1 ++ p :: x :: l2))
    (hp : next' p = next x) (hn : ∀ a ∈ l1 ++ l2, next' a = next a) :
    IsChain next' head (l1 ++ p :: l2) := by
  induction l1 generalizing head with
  | nil =>
    refine ⟨h.1, ?_⟩
    rw [hp]
    exact isChain_congr (fun a ha => hn a (by simpa using ha)) h.2.2
  | cons b l1 ih =>
    refine ⟨h.1, ?_⟩
    rw [hn b (by simp)]
    exact ih h.2 (fun a ha => hn a (by simp at ha ⊢; tauto))

/-- A chain over a finite type is no longer than the type. -/
theorem isChain_length_le [Fintype α] (h : IsChain next head l) : l.length ≤ Fintype.card α :=
  (isChain_nodup h).length_le_card

end Crius.Lib.Chain
