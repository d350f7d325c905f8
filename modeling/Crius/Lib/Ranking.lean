import Mathlib.Data.List.Sort

/-!
# Lists in the order of a rank

A rank gives every element a place of its own in a linear order. The elements of a list in
that order are its ranking. Elements that are inserted one by one, each before the first one
of a higher rank, end up in this order.
-/
namespace Crius.Lib.Ranking

open List

variable {α κ : Type*} [LinearOrder κ] (rank : α → κ)

/-- The elements of a list, the lowest rank first. -/
def ranking (l : List α) : List α := l.insertionSort (rank · ≤ rank ·)

/-- Put an element before the first one that has a higher rank. -/
def place (a : α) (l : List α) : List α := l.insertIdx (l.findIdx fun b => rank a < rank b) a

/-- No element has a lower rank than one before it. -/
def Ranked (l : List α) : Prop := l.Pairwise (rank · ≤ rank ·)

variable {rank} {a : α} {l l₁ l₂ : List α}

theorem ranking_perm (l : List α) : (ranking rank l).Perm l := perm_insertionSort _ l

theorem ranked_ranking (l : List α) : Ranked rank (ranking rank l) := by
  have : Std.Total fun a b : α => rank a ≤ rank b := ⟨fun a b => le_total (rank a) (rank b)⟩
  have : IsTrans α fun a b => rank a ≤ rank b := ⟨fun _ _ _ => le_trans⟩
  exact pairwise_insertionSort _ l

/-- The order of a ranked list is determined by its elements. -/
theorem eq_of_ranked (hrank : Function.Injective rank) (h1 : Ranked rank l₁) (h2 : Ranked rank l₂)
    (hperm : l₁.Perm l₂) : l₁ = l₂ :=
  hperm.eq_of_pairwise (fun _ _ _ _ hab hba => hrank (le_antisymm hab hba)) h1 h2

theorem place_cons (b : α) :
    place rank a (b :: l) = if rank a < rank b then a :: b :: l else b :: place rank a l := by
  by_cases h : rank a < rank b
  · simp [place, findIdx_cons, h]
  · simp [place, findIdx_cons, h]

theorem place_perm (l : List α) : (place rank a l).Perm (a :: l) := by
  induction l with
  | nil => exact List.Perm.refl _
  | cons b l ih =>
    rw [place_cons]
    split
    · exact List.Perm.refl _
    · exact (ih.cons b).trans (List.Perm.swap a b l)

theorem ranked_place (h : Ranked rank l) : Ranked rank (place rank a l) := by
  induction l with
  | nil => exact pairwise_singleton _ a
  | cons b l ih =>
    obtain ⟨hb, hl⟩ := pairwise_cons.mp h
    rw [place_cons]
    split
    · rename_i hab
      apply List.Pairwise.cons _ h
      intro c hc
      rcases mem_cons.mp hc with rfl | hc
      · exact le_of_lt hab
      · exact le_trans (le_of_lt hab) (hb c hc)
    · rename_i hab
      apply List.Pairwise.cons _ (ih hl)
      intro c hc
      rcases mem_cons.mp ((place_perm l).mem_iff.mp hc) with rfl | hc
      · exact not_lt.mp hab
      · exact hb c hc

/-- A list is cut in two. The ranking of the first part is the beginning of the ranking of the
whole exactly if each element of the first part has a lower rank than each of the second. -/
theorem ranking_take (hrank : Function.Injective rank) {n : ℕ} (hnodup : (l₁ ++ l₂).Nodup)
    (hn : l₁.length = n) : ranking rank l₁ = (ranking rank (l₁ ++ l₂)).take n ↔
      ∀ a ∈ l₁, ∀ b ∈ l₂, rank a < rank b := by
  constructor
  · intro h a ha b hb
    have hall : Ranked rank (ranking rank (l₁ ++ l₂)) := ranked_ranking _
    have hperm : (ranking rank (l₁ ++ l₂)).Perm (l₁ ++ l₂) := ranking_perm _
    rw [← take_append_drop n (ranking rank (l₁ ++ l₂)), ← h] at hall hperm
    -- what is left of the whole is the second part
    have hrest : ((ranking rank (l₁ ++ l₂)).drop n).Perm l₂ :=
      (perm_append_left_iff _).mp (hperm.trans ((ranking_perm l₁).symm.append_right l₂))
    have hle := (pairwise_append.mp hall).2.2 a ((ranking_perm l₁).mem_iff.mpr ha) b
      (hrest.mem_iff.mpr hb)
    apply lt_of_le_of_ne hle
    intro heq
    have hab := hrank heq
    exact (nodup_append.mp hnodup).2.2 a ha b hb hab
  · intro h
    have hranked : Ranked rank (ranking rank l₁ ++ ranking rank l₂) := by
      apply pairwise_append.mpr
      constructor
      · exact ranked_ranking l₁
      · constructor
        · exact ranked_ranking l₂
        · intro a ha b hb
          exact le_of_lt (h a ((ranking_perm l₁).mem_iff.mp ha) b ((ranking_perm l₂).mem_iff.mp hb))
    have hwhole : ranking rank (l₁ ++ l₂) = ranking rank l₁ ++ ranking rank l₂ := by
      apply eq_of_ranked hrank (ranked_ranking _) hranked
      exact (ranking_perm _).trans ((ranking_perm l₁).symm.append (ranking_perm l₂).symm)
    rw [hwhole, take_left' ((ranking_perm l₁).length_eq.trans hn)]

end Crius.Lib.Ranking
