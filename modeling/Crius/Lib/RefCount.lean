import Mathlib.Data.Fintype.BigOperators

/-!
# Counting references

A finite table of optional references and, for each object, the number of entries that
refer to it. The rules say how the count moves when one entry changes.
-/
namespace Crius.Lib.RefCount

open Function Finset

variable {α β : Type*} [Fintype α] [DecidableEq β]

/-- Two sums that differ in one term, written without subtraction. -/
theorem sum_exchange {ι : Type*} [DecidableEq ι] {s : Finset ι} {f g : ι → ℕ} {i : ι} (hi : i ∈ s)
    (h : ∀ j ∈ s, j ≠ i → g j = f j) : ∑ j ∈ s, g j + f i = ∑ j ∈ s, f j + g i := by
  have hrest : ∑ j ∈ s.erase i, g j = ∑ j ∈ s.erase i, f j :=
    sum_congr rfl fun j hj => h j (mem_of_mem_erase hj) (ne_of_mem_erase hj)
  rw [← add_sum_erase s f hi, ← add_sum_erase s g hi, hrest]
  omega

/-- The number of entries of `g` that refer to `b`. -/
def count (g : α → Option β) (b : β) : Nat := (Finset.univ.filter fun a => g a = some b).card

theorem count_eq_sum (g : α → Option β) (b : β) :
    count g b = ∑ a, if g a = some b then 1 else 0 := by
  rw [count, card_filter]

/-- Changing one entry. -/
theorem count_update [DecidableEq α] (g : α → Option β) (a : α) (v : Option β) (b : β) :
    count (update g a v) b + (if g a = some b then 1 else 0) =
      count g b + (if v = some b then 1 else 0) := by
  have hsum := sum_exchange (f := fun x => if g x = some b then 1 else 0)
    (g := fun x => if update g a v x = some b then 1 else 0) (mem_univ a)
    fun x _ hx => by rw [update_of_ne hx]
  simpa only [count_eq_sum, update_self] using hsum

theorem count_pos {g : α → Option β} {b : β} : 0 < count g b ↔ ∃ a, g a = some b := by
  rw [count, card_pos]
  constructor
  · rintro ⟨a, ha⟩
    exact ⟨a, (mem_filter.mp ha).2⟩
  · rintro ⟨a, ha⟩
    exact ⟨a, mem_filter.mpr ⟨mem_univ a, ha⟩⟩

theorem count_eq_zero {g : α → Option β} {b : β} : count g b = 0 ↔ ∀ a, g a ≠ some b := by
  rw [← not_iff_not, ← ne_eq, ← Nat.pos_iff_ne_zero, count_pos]
  simp

/-- An extra entry that refers to nothing does not count. -/
theorem count_option {g : Option α → Option β} (h : g none = none) (b : β) :
    count g b = count (fun a => g (some a)) b := by
  rw [count_eq_sum, count_eq_sum, Fintype.sum_option, h]
  simp

end Crius.Lib.RefCount
