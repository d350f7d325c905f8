import Crius.Lib.RefCount
import Mathlib.Tactic

/-!
# Radix trees in a memory of tables

A memory holds tables of `n` words. A live word of level `d + 1` points to a table of words
of level `d`, and a live word of level 0 is a leaf that points to a frame. The tree under a
word is read off the memory, so nothing keeps two words from pointing to the same table;
what holds of trees that share no tables is stated with the number of times a table occurs.

Some words of a table may belong to someone else, like the half of a top-level page table
that all address spaces share. `seen` says which words are part of the tree.

`weight` adds up a value for each leaf and each table under a word, `Below` says which
tables these are, and `find` follows a path of indices.
-/
namespace Crius.Lib.Radix

open Function List Finset Nat Option RefCount

/-- How a word is read: whether it is live, the table that it points to if it stands above
level 0, and the frame that it points to as a leaf; and the words of a table of each level
that are part of the tree. -/
structure Shape (F W : Type) (n : ℕ) where
  live : W → Bool
  table : W → F
  frame : W → F
  seen : ℕ → Finset (Fin n)

variable {F W : Type} {n : ℕ} (S : Shape F W n)

def weight (leafW : W → ℕ) (tableW : F → ℕ) (mem : F → Fin n → W) : ℕ → W → ℕ
  | 0, e => if S.live e then leafW e else 0
  | d + 1, e =>
    if S.live e then
      tableW (S.table e) + ∑ i ∈ S.seen d, weight leafW tableW mem d (mem (S.table e) i)
    else 0

/-- The table `x` occurs under the word `e` of level `d`, and its words have level `k`. -/
def Below (mem : F → Fin n → W) : ℕ → W → F → ℕ → Prop
  | 0, _, _, _ => False
  | d + 1, e, x, k => S.live e = true ∧
      (x = S.table e ∧ k = d ∨ ∃ i ∈ S.seen d, Below mem d (mem (S.table e) i) x k)

/-- The leaf at the end of a path. -/
def find (mem : F → Fin n → W) : ℕ → W → List (Fin n) → Option W
  | 0, e, [] => if S.live e then some e else none
  | d + 1, e, i :: p =>
    if S.live e ∧ i ∈ S.seen d then find mem d (mem (S.table e) i) p else none
  | _, _, _ => none

/-- The table at the end of a path. -/
def locate (mem : F → Fin n → W) : ℕ → W → List (Fin n) → Option F
  | 0, _, _ => none
  | _ + 1, e, [] => if S.live e then some (S.table e) else none
  | d + 1, e, i :: p =>
    if S.live e ∧ i ∈ S.seen d then locate mem d (mem (S.table e) i) p else none

/-- The frames that the leaves and tables under a word point to; a table comes after
everything under it. -/
def frames (mem : F → Fin n → W) : ℕ → W → List F
  | 0, e => if S.live e then [S.frame e] else []
  | d + 1, e =>
    if S.live e then
      ((List.finRange n).filter (· ∈ S.seen d)).flatMap
        (fun i => frames mem d (mem (S.table e) i)) ++ [S.table e]
    else []

section

variable {S} {leafW : W → ℕ} {tableW : F → ℕ} {mem mem' : F → Fin n → W} {d k : ℕ} {e : W} {x : F}
  {i : Fin n} {p q : List (Fin n)}

theorem weight_dead (he : S.live e = false) : weight S leafW tableW mem d e = 0 := by
  cases d <;> simp [weight, he]

theorem weight_zero_live (he : S.live e = true) : weight S leafW tableW mem 0 e = leafW e := by
  simp [weight, he]

theorem weight_succ_live (he : S.live e = true) : weight S leafW tableW mem (d + 1) e =
    tableW (S.table e) + ∑ i ∈ S.seen d, weight S leafW tableW mem d (mem (S.table e) i) := by
  simp [weight, he]

theorem below_dead (he : S.live e = false) : ¬Below S mem d e x k := by
  cases d with
  | zero => exact id
  | succ d =>
    rintro ⟨hlive, -⟩
    rw [he] at hlive
    cases hlive

theorem below_table (he : S.live e = true) : Below S mem (d + 1) e (S.table e) d :=
  ⟨he, .inl ⟨rfl, rfl⟩⟩

theorem below_child (he : S.live e = true) (hi : i ∈ S.seen d)
    (hb : Below S mem d (mem (S.table e) i) x k) : Below S mem (d + 1) e x k :=
  ⟨he, .inr ⟨i, hi, hb⟩⟩

theorem find_live (he : S.live e = true) (hi : i ∈ S.seen d) :
    find S mem (d + 1) e (i :: p) = find S mem d (mem (S.table e) i) p := if_pos ⟨he, hi⟩

theorem find_eq_none (h : ¬(S.live e = true ∧ i ∈ S.seen d)) :
    find S mem (d + 1) e (i :: p) = none := if_neg h

theorem find_dead (he : S.live e = false) (p : List (Fin n)) : find S mem d e p = none := by
  cases d with
  | zero =>
    cases p with
    | nil => simp [find, he]
    | cons i p => rfl
  | succ d =>
    cases p with
    | nil => rfl
    | cons i p => exact find_eq_none fun h => by simp [he] at h

/-- Words may change along a relation that keeps where they point to. -/
def Edit (S : Shape F W n) (R : W → W → Prop) (mem mem' : F → Fin n → W) (d : ℕ) (e : W) : Prop :=
  ∀ x k, Below S mem d e x k → ∀ i, R (mem x i) (mem' x i)

section Edit

variable {R : W → W → Prop} {e' : W} (hlive : ∀ w w', R w w' → S.live w' = S.live w)
  (htable : ∀ w w', R w w' → S.table w' = S.table w)

theorem Edit.child {i : Fin n} (h : Edit S R mem mem' (d + 1) e) (he : S.live e = true)
    (hi : i ∈ S.seen d) : Edit S R mem mem' d (mem (S.table e) i) :=
  fun x k hb => h x k (below_child he hi hb)

include hlive htable

theorem Edit.weight (hw : ∀ w w', R w w' → leafW w' = leafW w) (h : Edit S R mem mem' d e)
    (hR : R e e') : weight S leafW tableW mem' d e' = weight S leafW tableW mem d e := by
  induction d generalizing e e' with
  | zero => simp only [Radix.weight, hlive e e' hR, hw e e' hR]
  | succ d ih =>
    cases he : S.live e with
    | false => rw [weight_dead he, weight_dead (hlive e e' hR ▸ he)]
    | true =>
      rw [weight_succ_live he, weight_succ_live (hlive e e' hR ▸ he), htable e e' hR]
      refine congrArg _ (sum_congr rfl fun i hi => ?_)
      exact ih (h.child he hi) (h _ _ (below_table he) i)

theorem Edit.find (h : Edit S R mem mem' d e) (hR : R e e') (p : List (Fin n)) :
    Option.Rel R (find S mem d e p) (find S mem' d e' p) := by
  induction d generalizing e e' p with
  | zero =>
    cases p with
    | nil =>
      simp only [Radix.find, hlive e e' hR]
      split
      · exact .some hR
      · exact .none
    | cons i p => exact .none
  | succ d ih =>
    cases p with
    | nil => exact .none
    | cons i p =>
      by_cases hs : S.live e = true ∧ i ∈ S.seen d
      · rw [find_live hs.1 hs.2, find_live (hlive e e' hR ▸ hs.1) hs.2, htable e e' hR]
        exact ih (h.child hs.1 hs.2) (h _ _ (below_table hs.1) i) p
      · rw [find_eq_none hs, find_eq_none (hlive e e' hR ▸ hs)]
        exact .none

end Edit

section

variable (hm : ∀ x k, Below S mem d e x k → mem' x = mem x)

include hm

/-- What is read of a tree depends only on its tables. -/
theorem below_congr : Below S mem' d e x k ↔ Below S mem d e x k := by
  induction d generalizing e with
  | zero => exact Iff.rfl
  | succ d ih =>
    refine and_congr_right fun he => or_congr_right (exists_congr fun i => ?_)
    refine and_congr_right fun hi => ?_
    rw [hm _ _ (below_table he)]
    exact ih fun x k hb => hm x k (below_child he hi hb)

theorem edit_eq : Edit S Eq mem mem' d e := fun x k hb i => congrFun (hm x k hb).symm i

theorem weight_congr : weight S leafW tableW mem' d e = weight S leafW tableW mem d e :=
  (edit_eq hm).weight (fun _ _ h => by rw [h]) (fun _ _ h => by rw [h]) (fun _ _ h => by rw [h]) rfl

theorem find_congr (p : List (Fin n)) : find S mem' d e p = find S mem d e p := by
  have hrel := (edit_eq hm).find (fun _ _ h => by rw [h]) (fun _ _ h => by rw [h]) rfl p
  generalize find S mem d e p = w, find S mem' d e p = w' at hrel ⊢
  cases hrel with
  | none => rfl
  | some h => rw [h]

theorem frames_congr : frames S mem' d e = frames S mem d e := by
  induction d generalizing e with
  | zero => rfl
  | succ d ih =>
    by_cases he : S.live e = true
    · simp only [frames, if_pos he, hm _ _ (below_table he)]
      refine congrArg (· ++ _) (flatMap_congr fun i hi => ?_)
      have hseen : i ∈ S.seen d := by simpa using (mem_filter.mp hi).2
      exact ih fun x k hb => hm x k (below_child he hseen hb)
    · simp only [frames, if_neg he]

end

theorem locate_live (he : S.live e = true) (hi : i ∈ S.seen d) :
    locate S mem (d + 1) e (i :: p) = locate S mem d (mem (S.table e) i) p := if_pos ⟨he, hi⟩

theorem locate_congr (hm : ∀ x k, Below S mem d e x k → mem' x = mem x) (p : List (Fin n)) :
    locate S mem' d e p = locate S mem d e p := by
  induction d generalizing e p with
  | zero => rfl
  | succ d ih =>
    cases p with
    | nil => rfl
    | cons i p =>
      simp only [locate]
      split_ifs with hs
      · rw [hm _ _ (below_table hs.1)]
        exact ih (fun x k hb => hm x k (below_child hs.1 hs.2 hb)) p
      · rfl

/-- The walk to a table `x` whose words are of level `k`. -/
inductive Leads (S : Shape F W n) (mem : F → Fin n → W) (x : F) (k : ℕ) :
    ℕ → W → List (Fin n) → Prop
  | here {e : W} (live : S.live e = true) (table : S.table e = x) : Leads S mem x k (k + 1) e []
  | step {d : ℕ} {e : W} {i : Fin n} {p : List (Fin n)} (live : S.live e = true)
      (seen : i ∈ S.seen d) (rest : Leads S mem x k d (mem (S.table e) i) p) :
      Leads S mem x k (d + 1) e (i :: p)

theorem leads_of_locate (hl : locate S mem d e p = some x) (hd : p.length + k + 1 = d) :
    Leads S mem x k d e p := by
  induction p generalizing d e with
  | nil =>
    obtain rfl : d = k + 1 := by simpa using hd.symm
    simp only [locate] at hl
    split at hl
    · next he => exact .here he (some.inj hl)
    · cases hl
  | cons i p ih =>
    obtain ⟨d, rfl⟩ : ∃ d', d = d' + 1 := ⟨p.length + 1 + k, by simp at hd; omega⟩
    simp only [locate] at hl
    split at hl
    · next hs => exact .step hs.1 hs.2 (ih hl (by simp at hd; omega))
    · cases hl

theorem Leads.reaches (h : Leads S mem x k d e p) : Below S mem d e x k := by
  induction h with
  | here he ht => exact ht ▸ below_table he
  | step he hi _ ih => exact below_child he hi ih

section

variable (hl : locate S mem d e p = some x)

include hl

theorem below_of_locate (hd : p.length + k + 1 = d) :
    Below S mem d e x k := (leads_of_locate hl hd).reaches

/-- The leaves beyond a table. -/
theorem find_of_locate (hd : p.length + k + 1 = d) (hi : i ∈ S.seen k) :
    find S mem d e (p ++ i :: q) = find S mem k (mem x i) q := by
  have hwalk := leads_of_locate hl hd
  clear hl hd
  induction hwalk with
  | here he ht => rw [nil_append, find_live he hi, ht]
  | step he hj _ ih => rw [cons_append, find_live he hj, ih]

theorem locate_of_locate (hd : p.length + k + 1 = d) (hi : i ∈ S.seen k) :
    locate S mem d e (p ++ i :: q) = locate S mem k (mem x i) q := by
  have hwalk := leads_of_locate hl hd
  clear hl hd
  induction hwalk with
  | here he ht => rw [nil_append, locate_live he hi, ht]
  | step he hj _ ih => rw [cons_append, locate_live he hj, ih]

end

theorem find_of_locate_none (hl : locate S mem d e p = none) (hd : p.length + k + 1 = d) :
    find S mem d e (p ++ i :: q) = none := by
  induction p generalizing d e with
  | nil =>
    obtain rfl : d = k + 1 := by simpa using hd.symm
    refine find_eq_none fun hs => ?_
    simp [locate, hs.1] at hl
  | cons j p ih =>
    obtain ⟨d, rfl⟩ : ∃ d', d = d' + 1 := ⟨p.length + 1 + k, by simp at hd; omega⟩
    simp only [locate] at hl
    split at hl
    · next hs =>
      rw [cons_append, find_live hs.1 hs.2]
      exact ih hl (by simp at hd; omega)
    · next hs => exact find_eq_none hs

theorem live_of_find {w : W} (h : find S mem d e p = some w) : S.live w = true := by
  fun_induction find S mem d e p with
  | case1 e he =>
    obtain rfl := some.inj h
    exact he
  | case3 d e i p hs ih => exact ih h
  | case2 | case4 | case5 => cases h

theorem find_length {w : W} (h : find S mem d e p = some w) : p.length = d := by
  fun_induction find S mem d e p with
  | case1 e he => rfl
  | case3 d e i p hs ih => rw [length_cons, ih h]
  | case2 | case4 | case5 => cases h

end

/-! ## Occurrences -/

section

variable [DecidableEq F]

/-- How often `x` occurs as a table. -/
def tableCount (mem : F → Fin n → W) (d : ℕ) (e : W) (x : F) : ℕ :=
  weight S (fun _ => 0) (fun y => if y = x then 1 else 0) mem d e

/-- How often `x` occurs as the frame of a leaf. -/
def leafCount (mem : F → Fin n → W) (d : ℕ) (e : W) (x : F) : ℕ :=
  weight S (fun w => if S.frame w = x then 1 else 0) (fun _ => 0) mem d e

variable {S} {leafW : W → ℕ} {tableW : F → ℕ} {mem mem' : F → Fin n → W} {d k : ℕ} {e w : W}
  {x f : F} {i : Fin n} {p : List (Fin n)}

theorem tableCount_pos : 0 < tableCount S mem d e x ↔ ∃ k, Below S mem d e x k := by
  induction d generalizing e with
  | zero =>
    cases he : S.live e <;> simp [tableCount, weight, Below, he]
  | succ d ih =>
    cases he : S.live e with
    | false =>
      rw [tableCount, weight_dead he]
      simp [below_dead he]
    | true =>
      rw [tableCount, weight_succ_live he]
      constructor
      · intro hpos
        by_cases hx : S.table e = x
        · exact ⟨d, hx ▸ below_table he⟩
        · rw [if_neg hx, zero_add] at hpos
          obtain ⟨i, hi, hne⟩ := exists_ne_zero_of_sum_ne_zero (ne_of_gt hpos)
          obtain ⟨k, hk⟩ := ih.mp (pos_of_ne_zero hne)
          exact ⟨k, below_child he hi hk⟩
      · rintro ⟨k, -, ⟨rfl, -⟩ | ⟨i, hi, hb⟩⟩
        · rw [if_pos rfl]
          omega
        · have hpos := ih.mpr ⟨k, hb⟩
          have hle := single_le_sum (f := fun i => tableCount S mem d (mem (S.table e) i) x)
            (fun j _ => zero_le _) hi
          exact lt_of_lt_of_le hpos (le_trans hle (le_add_left _ _))

theorem not_below_of_tableCount (h : tableCount S mem d e x = 0) (k : ℕ) :
    ¬Below S mem d e x k := fun hb => by
  have := tableCount_pos.mpr ⟨k, hb⟩
  omega

theorem leafCount_live (he : S.live e = true) (x : F) : leafCount S mem (d + 1) e x =
    ∑ i ∈ S.seen d, leafCount S mem d (mem (S.table e) i) x :=
  (weight_succ_live he).trans (zero_add _)

theorem leafCount_pos {p : List (Fin n)} {w : W} (h : find S mem d e p = some w) :
    0 < leafCount S mem d e (S.frame w) := by
  fun_induction find S mem d e p with
  | case1 e he =>
    obtain rfl := some.inj h
    rw [leafCount, weight_zero_live he, if_pos rfl]
    exact one_pos
  | case3 d e i p hs ih =>
    have hle := single_le_sum (f := fun i => leafCount S mem d (mem (S.table e) i) (S.frame w))
      (fun j _ => zero_le _) hs.2
    rw [leafCount_live hs.1]
    exact lt_of_lt_of_le (ih h) hle
  | case2 | case4 | case5 => cases h

/-- A frame that occurs once has one path. -/
theorem path_unique {p q : List (Fin n)} {w w' : W} (hone : leafCount S mem d e (S.frame w) ≤ 1)
    (hp : find S mem d e p = some w) (hq : find S mem d e q = some w')
    (hframe : S.frame w' = S.frame w) : p = q := by
  induction d generalizing e p q with
  | zero =>
    have hlp := find_length hp
    have hlq := find_length hq
    rw [length_eq_zero_iff.mp hlp, length_eq_zero_iff.mp hlq]
  | succ d ih =>
    cases p with
    | nil => cases hp
    | cons i p =>
      cases q with
      | nil => cases hq
      | cons j q =>
        by_cases hi : S.live e = true ∧ i ∈ S.seen d
        · rw [leafCount_live hi.1] at hone
          by_cases hj : j ∈ S.seen d
          · rw [find_live hi.1 hi.2] at hp
            rw [find_live hi.1 hj] at hq
            have hij : i = j := by
              by_contra hne
              have hposp := leafCount_pos hp
              have hposq := leafCount_pos hq
              rw [hframe] at hposq
              have hsum := Finset.sum_le_sum_of_subset (f := fun k =>
                leafCount S mem d (mem (S.table e) k) (S.frame w))
                (show ({i, j} : Finset (Fin n)) ⊆ S.seen d by
                  intro k hk
                  rcases Finset.mem_insert.mp hk with rfl | hk
                  · exact hi.2
                  · rwa [Finset.mem_singleton.mp hk])
              rw [Finset.sum_pair hne] at hsum
              omega
            subst hij
            have hle := Finset.single_le_sum
              (f := fun k => leafCount S mem d (mem (S.table e) k) (S.frame w))
              (fun k _ => zero_le _) hi.2
            rw [ih (le_trans hle hone) hp hq]
          · rw [find_eq_none fun hand => hj hand.2] at hq
            cases hq
        · rw [find_eq_none hi] at hp
          cases hp

theorem exists_of_leafCount (h : 0 < leafCount S mem d e x) :
    ∃ p w, find S mem d e p = some w ∧ S.frame w = x := by
  induction d generalizing e with
  | zero =>
    cases he : S.live e with
    | false =>
      rw [leafCount, weight_dead he] at h
      cases h
    | true =>
      rw [leafCount, weight_zero_live he] at h
      refine ⟨[], e, by rw [find, if_pos he], ?_⟩
      by_contra hne
      rw [if_neg hne] at h
      cases h
  | succ d ih =>
    cases he : S.live e with
    | false =>
      rw [leafCount, weight_dead he] at h
      cases h
    | true =>
      rw [leafCount_live he] at h
      obtain ⟨i, hi, hne⟩ := exists_ne_zero_of_sum_ne_zero (ne_of_gt h)
      obtain ⟨p, w, hp, hw⟩ := ih (pos_of_ne_zero hne)
      exact ⟨i :: p, w, by rw [find_live he hi, hp], hw⟩

theorem sum_seen (s : Finset (Fin n)) (g : Fin n → ℕ) :
    ∑ i ∈ s, g i = (((finRange n).filter (· ∈ s)).map g).sum := by
  have hnodup : ((finRange n).filter (· ∈ s)).Nodup := (nodup_finRange n).filter _
  rw [← sum_toFinset g hnodup]
  refine sum_congr ?_ fun _ _ => rfl
  ext i
  simp

theorem frames_count (x : F) : (frames S mem d e).count x =
    leafCount S mem d e x + tableCount S mem d e x := by
  induction d generalizing e with
  | zero =>
    cases he : S.live e with
    | false => simp [frames, leafCount, tableCount, weight_dead he, he]
    | true => simp [frames, leafCount, tableCount, weight_zero_live he, he, count_singleton]
  | succ d ih =>
    cases he : S.live e with
    | false => simp [frames, leafCount, tableCount, weight_dead he, he]
    | true =>
      have hsum : (((finRange n).filter (· ∈ S.seen d)).flatMap
          fun i => frames S mem d (mem (S.table e) i)).count x =
          ∑ i ∈ S.seen d, (frames S mem d (mem (S.table e) i)).count x := by
        rw [count_flatMap, sum_seen]
        rfl
      simp only [frames, he, if_true, count_append, hsum, ih, leafCount, tableCount,
        weight_succ_live he, sum_add_distrib, count_singleton]
      simp only [beq_iff_eq]
      omega

/-! ## Writing one word -/

/-- The other words of the table that holds the changed word are not above that table. -/
theorem tableCount_self (he : S.live e = true) (hone : tableCount S mem (d + 1) e (S.table e) ≤ 1)
    {j : Fin n} (hj : j ∈ S.seen d) : tableCount S mem d (mem (S.table e) j) (S.table e) = 0 := by
  rw [tableCount, weight_succ_live he, if_pos rfl] at hone
  have hsum : ∑ i ∈ S.seen d, tableCount S mem d (mem (S.table e) i) (S.table e) = 0 := by
    unfold tableCount
    omega
  exact (sum_eq_zero_iff.mp hsum) j hj

/-- A table under one word of a table is not the table itself, nor under another word. -/
theorem tableCount_other {i : Fin n} (he : S.live e = true) (hi : i ∈ S.seen d)
    (hone : tableCount S mem (d + 1) e x ≤ 1) (hin : 0 < tableCount S mem d (mem (S.table e) i) x) :
    S.table e ≠ x ∧ tableCount S mem d (mem (S.table e) i) x ≤ 1 ∧
      ∀ j ∈ S.seen d, j ≠ i → tableCount S mem d (mem (S.table e) j) x = 0 := by
  rw [tableCount, weight_succ_live he] at hone
  have hsplit := add_sum_erase (S.seen d)
    (fun j => tableCount S mem d (mem (S.table e) j) x) hi
  simp only [tableCount] at hsplit hin ⊢
  refine ⟨fun heq => ?_, ?_, fun j hj hne => ?_⟩
  · rw [if_pos heq] at hone
    omega
  · split at hone <;> omega
  · have hrest : ∑ j ∈ (S.seen d).erase i, weight S (fun _ => 0)
        (fun y => if y = x then 1 else 0) mem d (mem (S.table e) j) = 0 := by
      split at hone <;> omega
    exact (sum_eq_zero_iff.mp hrest) j (mem_erase.mpr ⟨hne, hj⟩)

/-- A write to a table does not reach a tree without it. -/
theorem write_other (hmem : mem' = update mem f (update (mem f) i w))
    (h0 : tableCount S mem d e f = 0) (hb : Below S mem d e x k) : mem' x = mem x := by
  have hx : x ≠ f := by
    rintro rfl
    exact not_below_of_tableCount h0 k hb
  rw [hmem, update_of_ne hx]

/-- A write to a table that occurs once, seen from a table above it: that one is another table,
and of the trees below it only the one on the way changes. -/
theorem write_step {j : Fin n} (hmem : mem' = update mem f (update (mem f) i w))
    (he : S.live e = true) (hj : j ∈ S.seen d) (hone : tableCount S mem (d + 1) e f ≤ 1)
    (hwalk : Leads S mem f k d (mem (S.table e) j) p) :
    mem' (S.table e) = mem (S.table e) ∧ tableCount S mem d (mem (S.table e) j) f ≤ 1 ∧
      ∀ j' ∈ S.seen d, j' ≠ j → tableCount S mem d (mem (S.table e) j') f = 0 := by
  obtain ⟨hne, hone', hothers⟩ := tableCount_other he hj hone
    (tableCount_pos.mpr ⟨k, hwalk.reaches⟩)
  exact ⟨by rw [hmem, update_of_ne hne], hone', hothers⟩

section

variable (hl : locate S mem d e p = some f) (hd : p.length + k + 1 = d) (hi : i ∈ S.seen k)
  (hone : tableCount S mem d e f ≤ 1) (hmem : mem' = update mem f (update (mem f) i w))

include hl hd hi hone hmem

/-- Changing one word of a table that occurs once: the tree under the old word is exchanged
for the one under the new word. -/
theorem weight_write :
    weight S leafW tableW mem' d e + weight S leafW tableW mem k (mem f i) =
      weight S leafW tableW mem d e + weight S leafW tableW mem' k w := by
  have hsame (d : ℕ) (e : W) (h0 : tableCount S mem d e f = 0) :
      weight S leafW tableW mem' d e = weight S leafW tableW mem d e :=
    weight_congr fun x k hb => write_other hmem h0 hb
  have hwalk := leads_of_locate hl hd
  clear hl hd
  induction hwalk with
  | @here e he ht =>
    subst ht
    rw [weight_succ_live he, weight_succ_live he]
    have hf : mem' (S.table e) = update (mem (S.table e)) i w := by
      rw [hmem, update_self]
    have hsum := sum_exchange (f := fun j => weight S leafW tableW mem k (mem (S.table e) j))
      (g := fun j => weight S leafW tableW mem' k (mem' (S.table e) j)) hi fun j hj hne => by
        rw [hf, update_of_ne hne]
        exact hsame k _ (tableCount_self he hone hj)
    simp only [hf, update_self] at hsum ⊢
    omega
  | @step d e j p he hj hwalk ih =>
    obtain ⟨ht, hone', hothers⟩ := write_step hmem he hj hone hwalk
    have hsum := sum_exchange hj fun j' hj' hne => hsame d _ (hothers j' hj' hne)
    rw [weight_succ_live he, weight_succ_live he, ht]
    omega

/-- The same change, as the paths see it. -/
theorem find_write :
    (∀ q, find S mem' d e (p ++ i :: q) = find S mem' k w q) ∧
      ∀ q, ¬(p ++ [i]) <+: q → find S mem' d e q = find S mem d e q := by
  have hsame (d : ℕ) (e : W) (h0 : tableCount S mem d e f = 0) (q : List (Fin n)) :
      find S mem' d e q = find S mem d e q :=
    find_congr (fun x k hb => write_other hmem h0 hb) q
  have hwalk := leads_of_locate hl hd
  clear hl hd
  induction hwalk with
  | @here e he ht =>
    subst ht
    have hf : mem' (S.table e) = update (mem (S.table e)) i w := by
      rw [hmem, update_self]
    constructor
    · intro q
      rw [nil_append, find_live he hi, hf, update_self]
    · intro q hq
      cases q with
      | nil => rfl
      | cons j q =>
        have hj : j ≠ i := by
          rintro rfl
          exact hq ⟨q, rfl⟩
        by_cases hs : j ∈ S.seen k
        · rw [find_live he hs, find_live he hs, hf, update_of_ne hj]
          exact hsame k _ (tableCount_self he hone hs) q
        · rw [find_eq_none fun h => hs h.2, find_eq_none fun h => hs h.2]
  | @step d e j p he hj hwalk ih =>
    obtain ⟨ht, hone', hothers⟩ := write_step hmem he hj hone hwalk
    obtain ⟨hpath, hothersPath⟩ := ih hone'
    constructor
    · intro q
      rw [cons_append, find_live he hj, ht]
      exact hpath q
    · intro q hq
      cases q with
      | nil => rfl
      | cons j' q =>
        by_cases hs : j' ∈ S.seen d
        · rw [find_live he hs, find_live he hs, ht]
          by_cases hjj : j' = j
          · subst hjj
            refine hothersPath q fun hpre => hq ?_
            rw [cons_append]
            exact cons_prefix_cons.mpr ⟨rfl, hpre⟩
          · exact hsame d _ (hothers j' hs hjj) q
        · rw [find_eq_none fun h => hs h.2, find_eq_none fun h => hs h.2]

/-- The table at the end of a path, after a change of a word that is not on the path. -/
theorem locate_write :
    locate S mem' d e p = some f ∧
      ∀ q, locate S mem' d e (p ++ i :: q) = locate S mem' k w q := by
  have hwalk := leads_of_locate hl hd
  clear hl hd
  induction hwalk with
  | @here e he ht =>
    subst ht
    refine ⟨if_pos he, fun q => ?_⟩
    rw [nil_append, locate_live he hi, hmem, update_self, update_self]
  | @step d e j p he hj hwalk ih =>
    obtain ⟨ht, hone', -⟩ := write_step hmem he hj hone hwalk
    obtain ⟨hpath, hbelow⟩ := ih hone'
    refine ⟨?_, fun q => ?_⟩
    · rw [locate_live he hj, ht]
      exact hpath
    · rw [cons_append, locate_live he hj, ht]
      exact hbelow q

end

/-- A word of level 0 is changed, as the paths see it. -/
theorem find_leaf (hl : locate S mem d e p = some f) (hd : p.length + 0 + 1 = d) (hi : i ∈ S.seen 0)
    (hone : tableCount S mem d e f ≤ 1) (hmem : mem' = update mem f (update (mem f) i w)) :
    find S mem' d e (p ++ [i]) = (if S.live w then some w else none) ∧
      ∀ q, q ≠ p ++ [i] → find S mem' d e q = find S mem d e q := by
  obtain ⟨hself, hothers⟩ := find_write hl hd hi hone hmem
  refine ⟨hself [], fun q hq => ?_⟩
  by_cases hpre : p ++ [i] <+: q
  · obtain ⟨s, rfl⟩ := hpre
    have hlong (m : F → Fin n → W) : find S m d e (p ++ [i] ++ s) = none := by
      cases hfind : find S m d e (p ++ [i] ++ s) with
      | none => rfl
      | some w =>
        have hlength := find_length hfind
        have hs : s = [] := by
          rw [length_append, length_append, length_singleton] at hlength
          exact eq_nil_of_length_eq_zero (by omega)
        rw [hs, append_nil] at hq
        exact absurd rfl hq
    rw [hlong, hlong]
  · exact hothers q hpre

/-- A word that was not live is made to point to a table without live words. -/
theorem graft (hl : locate S mem d e p = some f) (hd : p.length + (k + 1) + 1 = d)
    (hi : i ∈ S.seen (k + 1))
    (hone : tableCount S mem d e f ≤ 1) (hdead : S.live (mem f i) = false) (hw : S.live w = true)
    (hne : S.table w ≠ f) (hblank : ∀ j ∈ S.seen k, S.live (mem (S.table w) j) = false)
    (hmem : mem' = update mem f (update (mem f) i w)) :
    (∀ x, tableCount S mem' d e x = tableCount S mem d e x + if S.table w = x then 1 else 0) ∧
      (∀ x, leafCount S mem' d e x = leafCount S mem d e x) ∧
      (∀ q, find S mem' d e q = find S mem d e q) ∧
      locate S mem' d e (p ++ [i]) = some (S.table w) := by
  have hblank' (j : Fin n) (hj : j ∈ S.seen k) : S.live (mem' (S.table w) j) = false := by
    rw [hmem, update_of_ne hne]
    exact hblank j hj
  have hnew (leafW : W → ℕ) (tableW : F → ℕ) :
      weight S leafW tableW mem' (k + 1) w = tableW (S.table w) := by
    rw [weight_succ_live hw, sum_eq_zero fun j hj => weight_dead (hblank' j hj), add_zero]
  have hold (leafW : W → ℕ) (tableW : F → ℕ) : weight S leafW tableW mem (k + 1) (mem f i) = 0 :=
    weight_dead hdead
  obtain ⟨hself, hothers⟩ := find_write hl hd hi hone hmem
  refine ⟨fun x => ?_, fun x => ?_, fun q => ?_, ?_⟩
  · have hsum : tableCount S mem' d e x + _ = tableCount S mem d e x + _ :=
      weight_write hl hd hi hone hmem
    rw [hnew, hold] at hsum
    exact hsum
  · have hsum : leafCount S mem' d e x + _ = leafCount S mem d e x + _ :=
      weight_write hl hd hi hone hmem
    rw [hnew, hold] at hsum
    exact hsum
  · by_cases hpre : p ++ [i] <+: q
    · -- under the new table there is nothing, as there was under the dead word
      obtain ⟨s, rfl⟩ := hpre
      rw [append_assoc, singleton_append, hself, find_of_locate hl hd hi, find_dead hdead]
      cases s with
      | nil => rfl
      | cons j s =>
        by_cases hj : j ∈ S.seen k
        · rw [find_live hw hj]
          exact find_dead (hblank' j hj) s
        · exact find_eq_none fun hand => hj hand.2
    · exact hothers q hpre
  · rw [(locate_write hl hd hi hone hmem).2 [], locate, if_pos hw]

end

/-! ## Several trees -/

section

variable [DecidableEq F]

/-- The weight of the trees under some words of level `d`. -/
def forest (leafW : W → ℕ) (tableW : F → ℕ) (mem : F → Fin n → W) (d : ℕ) (es : Multiset W) : ℕ :=
  (es.map (weight S leafW tableW mem d)).sum

variable {S} {leafW : W → ℕ} {tableW : F → ℕ} {mem mem' : F → Fin n → W} {d k : ℕ} {e : W}
  {es : Multiset W}

omit [DecidableEq F] in
theorem forest_cons : forest S leafW tableW mem d (e ::ₘ es) =
    weight S leafW tableW mem d e + forest S leafW tableW mem d es := by
  rw [forest, Multiset.map_cons, Multiset.sum_cons, forest]

omit [DecidableEq F] in
theorem forest_congr (h : ∀ e ∈ es, weight S leafW tableW mem' d e =
    weight S leafW tableW mem d e) :
    forest S leafW tableW mem' d es = forest S leafW tableW mem d es :=
  congrArg Multiset.sum (Multiset.map_congr rfl h)

/-- The table `x` occurs in no tree. -/
theorem not_below_of_forest {x : F} (h : forest S (fun _ => 0) (fun y => if y = x then 1 else 0)
    mem d es = 0) (he : e ∈ es) (k : ℕ) : ¬Below S mem d e x k := by
  refine not_below_of_tableCount ?_ k
  obtain ⟨es', rfl⟩ := Multiset.exists_cons_of_mem he
  rw [forest_cons] at h
  unfold tableCount
  omega

variable {f : F} {i : Fin n} {w : W} {p : List (Fin n)}

/-- Changing one word of a table that occurs once in all trees. -/
theorem forest_write (hl : locate S mem d e p = some f) (hd : p.length + k + 1 = d)
    (hi : i ∈ S.seen k) (hone : forest S (fun _ => 0) (fun y => if y = f then 1 else 0) mem d
      (e ::ₘ es) ≤ 1)
    (hmem : mem' = update mem f (update (mem f) i w)) :
    forest S leafW tableW mem' d (e ::ₘ es) + weight S leafW tableW mem k (mem f i) =
      forest S leafW tableW mem d (e ::ₘ es) + weight S leafW tableW mem' k w := by
  rw [forest_cons] at hone
  have hin := tableCount_pos.mpr ⟨k, below_of_locate hl hd⟩
  unfold tableCount at hin
  have hothers : forest S leafW tableW mem' d es = forest S leafW tableW mem d es := by
    refine forest_congr fun e' he' => weight_congr fun x k hb => ?_
    have hx : x ≠ f := by
      rintro rfl
      exact not_below_of_forest (by omega) he' k hb
    rw [hmem, update_of_ne hx]
  have htree : weight S leafW tableW mem' d e + weight S leafW tableW mem k (mem f i) =
      weight S leafW tableW mem d e + weight S leafW tableW mem' k w :=
    weight_write hl hd hi (by unfold tableCount; omega) hmem
  rw [forest_cons, forest_cons, hothers]
  omega

end

end Crius.Lib.Radix
