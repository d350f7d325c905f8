import Mathlib.Tactic

/-!
# Ring buffers

A queue in an array of `n + 1` cells with two indices: the elements lie from `tail` up to, but
not including, `head`, around the end of the array. One cell stays free, so equal indices mean
an empty queue.
-/
namespace Crius.Lib.Ring

open List Function

variable {α : Type} {n : ℕ}

/-- The elements of the queue, the oldest first. -/
def contents (cells : Fin (n + 1) → α) (tail head : Fin (n + 1)) : List α :=
  (List.range (head - tail).val).map fun j => cells (tail + Fin.ofNat (n + 1) j)

variable {cells : Fin (n + 1) → α} {tail head : Fin (n + 1)}

theorem length_contents : (contents cells tail head).length = (head - tail).val := by
  rw [contents, length_map, length_range]

theorem contents_self : contents cells tail tail = [] := by
  rw [contents, sub_self]
  rfl

/-- The queue is full when the next index is that of the oldest element. -/
theorem length_of_full (h : head + 1 = tail) : (contents cells tail head).length = n := by
  have hlast : head - tail = Fin.last n := by
    rw [← h, sub_add_eq_sub_sub, sub_self, zero_sub, neg_eq_iff_add_eq_zero,
      add_comm (1 : Fin (n + 1)) (Fin.last n)]
    exact Fin.last_add_one n
  rw [length_contents, hlast, Fin.val_last]

/-- The offset of a cell from `tail`. -/
theorem add_ofNat_eq_head {j : ℕ} (hj : j < n + 1) :
    tail + Fin.ofNat (n + 1) j = head ↔ j = (head - tail).val := by
  have hval : (Fin.ofNat (n + 1) j).val = j := Nat.mod_eq_of_lt hj
  rw [← eq_sub_iff_add_eq', Fin.ext_iff, hval]

/-- A new element at `head`. -/
theorem contents_push (h : head + 1 ≠ tail) (x : α) :
    contents (update cells head x) tail (head + 1) = contents cells tail head ++ [x] := by
  have hlast : head - tail ≠ Fin.last n := by
    intro heq
    apply h
    rw [sub_eq_iff_eq_add.mp heq, add_comm (Fin.last n), add_assoc, Fin.last_add_one, add_zero]
  have hnext : (head + 1 - tail).val = (head - tail).val + 1 := by
    rw [add_sub_right_comm, Fin.val_add_one_of_lt (Fin.lt_last_iff_ne_last.mpr hlast)]
  have hbound := (head - tail).isLt
  rw [contents, contents, hnext, range_succ, map_append]
  refine congrArg₂ (· ++ ·) (map_congr_left fun j hj => ?_) ?_
  · rw [mem_range] at hj
    apply update_of_ne
    rw [ne_eq, add_ofNat_eq_head (by omega)]
    omega
  · have hself : tail + Fin.ofNat (n + 1) (head - tail).val = head :=
      (add_ofNat_eq_head hbound).mpr rfl
    rw [map_singleton, hself, update_self]

/-- The oldest element is at `tail`. -/
theorem contents_pop (h : head ≠ tail) :
    contents cells tail head = cells tail :: contents cells (tail + 1) head := by
  have hne : head - tail ≠ 0 := sub_ne_zero.mpr h
  have hprev : (head - (tail + 1)).val = (head - tail).val - 1 := by
    rw [sub_add_eq_sub_sub, Fin.val_sub_one_of_ne_zero hne]
  have hpos : 0 < (head - tail).val := Nat.pos_of_ne_zero fun hzero => hne (Fin.ext hzero)
  rw [contents, contents, hprev]
  obtain ⟨d, hd⟩ : ∃ d, (head - tail).val = d + 1 := ⟨_, (Nat.sub_add_cancel hpos).symm⟩
  rw [hd, range_succ_eq_map, map_cons, map_map, Nat.add_sub_cancel]
  refine congrArg₂ cons ?_ (map_congr_left fun j _ => ?_)
  · rw [show Fin.ofNat (n + 1) 0 = 0 from rfl, add_zero]
  · have hsucc : Fin.ofNat (n + 1) (j + 1) = 1 + Fin.ofNat (n + 1) j := by
      apply Fin.ext
      rw [Fin.val_add]
      show (j + 1) % (n + 1) = (1 % (n + 1) + j % (n + 1)) % (n + 1)
      rw [← Nat.add_mod, Nat.add_comm]
    rw [comp_apply, hsucc, add_assoc]

end Crius.Lib.Ring
