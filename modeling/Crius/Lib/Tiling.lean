import Mathlib.Data.List.Pairwise

/-!
# Tilings of an interval

A list of pieces with a start and a stop, each piece starting where the one before it
stops. A tiling of `[lo, hi)` can be cut and put together at any piece, so an edit that
replaces some neighbouring pieces by others over the same interval leaves a tiling.
-/
namespace Crius.Lib.Tiling

open List

variable {β : Type} {start stop : β → Nat} {lo hi : Nat} {xs ys bs : List β} {b : β}

def Tiles (start stop : β → Nat) : Nat → Nat → List β → Prop
  | lo, hi, [] => lo = hi
  | lo, hi, b :: bs => start b = lo ∧ lo < stop b ∧ Tiles start stop (stop b) hi bs

@[simp] theorem tiles_nil : Tiles start stop lo hi [] ↔ lo = hi := Iff.rfl

@[simp] theorem tiles_cons : Tiles start stop lo hi (b :: bs) ↔
    start b = lo ∧ lo < stop b ∧ Tiles start stop (stop b) hi bs := Iff.rfl

theorem tiles_append : Tiles start stop lo hi (xs ++ ys) ↔
    ∃ mid, Tiles start stop lo mid xs ∧ Tiles start stop mid hi ys := by
  induction xs generalizing lo with
  | nil => simp
  | cons b xs ih =>
    rw [cons_append, tiles_cons, ih]
    constructor
    · rintro ⟨hb, hlt, mid, hxs, hys⟩
      exact ⟨mid, ⟨hb, hlt, hxs⟩, hys⟩
    · rintro ⟨mid, ⟨hb, hlt, hxs⟩, hys⟩
      exact ⟨hb, hlt, mid, hxs, hys⟩

/-- Cutting a tiling before and after one of its pieces. -/
theorem tiles_middle : Tiles start stop lo hi (xs ++ b :: ys) ↔
    Tiles start stop lo (start b) xs ∧ start b < stop b ∧
      Tiles start stop (stop b) hi ys := by
  rw [tiles_append]
  constructor
  · rintro ⟨mid, hxs, rfl, hlt, hys⟩
    exact ⟨hxs, hlt, hys⟩
  · rintro ⟨hxs, hlt, hys⟩
    exact ⟨start b, hxs, rfl, hlt, hys⟩

section

variable (h : Tiles start stop lo hi bs)

include h

theorem tiles_le : lo ≤ hi := by
  induction bs generalizing lo with
  | nil => exact Nat.le_of_eq h
  | cons b bs ih => exact Nat.le_trans (Nat.le_of_lt h.2.1) (ih h.2.2)

theorem tiles_mem (hb : b ∈ bs) : lo ≤ start b ∧ start b < stop b ∧ stop b ≤ hi := by
  obtain ⟨xs, ys, rfl⟩ := append_of_mem hb
  obtain ⟨hxs, hlt, hys⟩ := tiles_middle.mp h
  exact ⟨tiles_le hxs, hlt, tiles_le hys⟩

/-- Two pieces of a tiling are the same or do not overlap. -/
theorem tiles_apart {x y : β} (hx : x ∈ bs) (hy : y ∈ bs) :
    x = y ∨ stop x ≤ start y ∨ stop y ≤ start x := by
  induction bs generalizing lo with
  | nil => cases hx
  | cons b bs ih =>
    have hrest {z : β} (hz : z ∈ bs) : stop b ≤ start z := (tiles_mem h.2.2 hz).1
    rcases mem_cons.mp hx with rfl | hx
    · rcases mem_cons.mp hy with rfl | hy
      · exact .inl rfl
      · exact .inr (.inl (hrest hy))
    · rcases mem_cons.mp hy with hyb | hy
      · exact .inr (.inr (hyb ▸ hrest hx))
      · exact ih h.2.2 hx hy

/-- A tiling by at least one piece fixes its interval. -/
theorem tiles_interval {lo' hi' : Nat} (h' : Tiles start stop lo' hi' bs) (hne : bs ≠ []) :
    lo' = lo ∧ hi' = hi := by
  induction bs generalizing lo lo' with
  | nil => exact absurd rfl hne
  | cons b bs ih =>
    refine ⟨h'.1.symm.trans h.1, ?_⟩
    cases bs with
    | nil => exact h'.2.2.symm.trans h.2.2
    | cons c bs => exact (ih h.2.2 h'.2.2 (cons_ne_nil c bs)).2

theorem tiles_length : lo + bs.length ≤ hi := by
  induction bs generalizing lo with
  | nil => exact Nat.le_of_eq h
  | cons b bs ih =>
    have hlt := h.2.1
    have hlen := ih h.2.2
    rw [length_cons]
    omega

theorem tiles_nodup : (bs.map start).Nodup := by
  induction bs generalizing lo with
  | nil => exact nodup_nil
  | cons b bs ih =>
    rw [map_cons, nodup_cons]
    refine ⟨?_, ih h.2.2⟩
    intro hb
    obtain ⟨z, hz, hzb⟩ := mem_map.mp hb
    have hlow := (tiles_mem h.2.2 hz).1
    have hlt := h.2.1
    have hstart := h.1
    omega

end

end Crius.Lib.Tiling
