import Mathlib.Data.List.Basic

/-!
# Lists cut at a separator

The non-empty parts of a list between the separators, and the list that has a separator before
each part. Putting the separators before the parts of a list never makes it longer by more
than one, and cutting the result again gives the same parts.
-/
namespace Crius.Lib.Separated

open List

variable {α : Type*} [DecidableEq α] {sep : α} {l p : List α} {ps : List (List α)}

/-- The non-empty parts between the separators. -/
def parts (sep : α) (l : List α) : List (List α) := (l.splitOn sep).filter (· ≠ [])

/-- A separator before each part. -/
def joined (sep : α) (ps : List (List α)) : List α := ps.flatMap (sep :: ·)

/-- A part that is there and is not cut again. -/
def Whole (sep : α) (p : List α) : Prop := p ≠ [] ∧ sep ∉ p

omit [DecidableEq α] in
theorem joined_cons (p : List α) : joined sep (p :: ps) = sep :: (p ++ joined sep ps) := rfl

omit [DecidableEq α] in
theorem joined_append (qs : List (List α)) : joined sep (ps ++ qs) = joined sep ps ++ joined sep qs :=
  flatMap_append

omit [DecidableEq α] in
theorem joined_singleton (p : List α) : joined sep [p] = sep :: p := by simp [joined]

theorem splitOn_append_cons (hp : sep ∉ p) : (p ++ sep :: l).splitOn sep = p :: l.splitOn sep := by
  apply splitOnP_append_cons_of_forall_mem
  · intro x hx
    exact beq_eq_false_iff_ne.mpr fun heq => hp (heq ▸ hx)
  · exact beq_self_eq_true sep

theorem parts_append_cons (hp : Whole sep p) : parts sep (p ++ sep :: l) = p :: parts sep l := by
  rw [parts, splitOn_append_cons hp.2, filter_cons_of_pos (by simpa using hp.1), parts]

theorem splitOn_sep_cons : (sep :: l).splitOn sep = [] :: l.splitOn sep :=
  splitOn_append_cons (p := []) not_mem_nil

theorem parts_sep_cons : parts sep (sep :: l) = parts sep l := by
  rw [parts, splitOn_sep_cons, filter_cons_of_neg (by simp), parts]

theorem splitOn_cons_of_ne {x : α} (hx : x ≠ sep) :
    (x :: l).splitOn sep = (l.splitOn sep).modifyHead (x :: ·) := by
  rw [splitOn, splitOnP_cons_eq_if_modifyHead, if_neg (by simpa using hx), splitOn]

/-- The bytes of a list are those of its pieces and one separator between any two of them. -/
theorem sum_length_splitOn : (joined sep (l.splitOn sep)).length = l.length + 1 := by
  induction l with
  | nil => simp [joined]
  | cons x l ih =>
    by_cases hx : x = sep
    · subst hx
      rw [splitOn_sep_cons, joined_cons, nil_append, length_cons, ih, length_cons]
    · rw [splitOn_cons_of_ne hx]
      cases hl : l.splitOn sep with
      | nil => exact absurd hl (splitOnP_ne_nil _ l)
      | cons p ps =>
        rw [hl] at ih
        simp only [modifyHead_cons, joined_cons, length_cons, length_append] at ih ⊢
        omega

theorem not_mem_of_mem_splitOn (hp : p ∈ l.splitOn sep) : sep ∉ p := by
  induction l generalizing p with
  | nil =>
    rw [splitOn_nil, mem_singleton] at hp
    rw [hp]
    exact not_mem_nil
  | cons x l ih =>
    by_cases hx : x = sep
    · subst hx
      rw [splitOn_sep_cons] at hp
      rcases mem_cons.mp hp with rfl | hp
      · exact not_mem_nil
      · exact ih hp
    · rw [splitOn_cons_of_ne hx] at hp
      cases hl : l.splitOn sep with
      | nil => exact absurd hl (splitOnP_ne_nil _ l)
      | cons q qs =>
        rw [hl, modifyHead_cons] at hp
        rcases mem_cons.mp hp with rfl | hp
        · have hq := ih (hl ▸ mem_cons_self)
          exact fun hmem => (mem_cons.mp hmem).elim (fun heq => hx heq.symm) hq
        · exact ih (hl ▸ mem_cons_of_mem q hp)

theorem whole_of_mem_parts (hp : p ∈ parts sep l) : Whole sep p := by
  obtain ⟨hmem, hne⟩ := mem_filter.mp hp
  exact ⟨by simpa using hne, not_mem_of_mem_splitOn hmem⟩

omit [DecidableEq α] in
theorem joined_filter_length (f : List α → Bool) :
    (joined sep (ps.filter f)).length ≤ (joined sep ps).length := by
  induction ps with
  | nil => exact Nat.le_refl _
  | cons p ps ih =>
    rw [filter_cons]
    split <;> simp only [joined_cons, length_cons, length_append] <;> omega

theorem joined_parts_length : (joined sep (parts sep l)).length ≤ l.length + 1 :=
  Nat.le_trans (joined_filter_length _) (Nat.le_of_eq sum_length_splitOn)

theorem parts_of_whole (hp : Whole sep p) : parts sep p = [p] := by
  rw [parts, splitOn_eq_singleton hp.2, filter_cons_of_pos (by simpa using hp.1),
    filter_nil]

/-- Cutting what has been joined. -/
theorem parts_joined (h : ∀ p ∈ ps, Whole sep p) : parts sep (joined sep ps) = ps := by
  induction ps with
  | nil => simp [parts, joined]
  | cons p ps ih =>
    have hp := h p mem_cons_self
    have hrest := ih fun q hq => h q (mem_cons_of_mem p hq)
    rw [joined_cons, parts_sep_cons]
    cases ps with
    | nil => rw [joined, flatMap_nil, append_nil, parts_of_whole hp]
    | cons q qs =>
      rw [joined_cons, parts_sep_cons] at hrest
      rw [joined_cons, parts_append_cons hp, hrest]

end Crius.Lib.Separated
