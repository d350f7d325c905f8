import Crius.Fs.Mount
import Crius.Fs.PathNormal
import Crius.Lib.Ranking
import Mathlib.Data.Prod.Lex

/-!
# The order of the mounts that match a path

`find_mounts` sorts the matching mounts while it goes through the slots and stops as soon as
its array is full. So it ranks the first slots that match, and not the best ones: it selects
as it says exactly when no later slot ranks before one of these.
-/
namespace Crius.Fs

open Lib.Ranking Lib.Separated List Option
open Ramfs (slash)

/-! ## Component-wise prefixes -/

/-- The components of a path, of which the first one is empty. The root directory has no
other one. -/
def pathNames (path : List UInt8) : List (List UInt8) :=
  if path = [slash] then [[]] else path.splitOn slash

/-- The mount point is a component-wise prefix of the path. -/
def Covers (point path : List UInt8) : Prop := pathNames point <+: pathNames path

instance (point path : List UInt8) : Decidable (Covers point path) :=
  inferInstanceAs (Decidable (_ <+: _))

variable {path point : List UInt8}

theorem intercalate_append (ps qs : List (List UInt8)) (hps : ps ≠ []) (hqs : qs ≠ []) :
    [slash].intercalate (ps ++ qs) = [slash].intercalate ps ++ slash :: [slash].intercalate qs := by
  induction ps with
  | nil => exact absurd rfl hps
  | cons p ps ih =>
    cases ps with
    | nil =>
      rw [singleton_append, intercalate_cons_of_ne_nil hqs, intercalate_singleton,
        append_assoc, singleton_append]
    | cons q ps =>
      rw [cons_append, cons_append, intercalate_cons_cons,
        intercalate_cons_cons, ← cons_append, ih (cons_ne_nil q ps)]
      simp only [append_assoc]

/-- Cutting both at the slashes, one list begins with the other. -/
theorem splitOn_isPrefix : point.splitOn slash <+: path.splitOn slash ↔
    path = point ∨ ∃ rest, path = point ++ slash :: rest := by
  constructor
  · intro ⟨qs, hqs⟩
    have hpath : [slash].intercalate (point.splitOn slash ++ qs) = path := by
      rw [hqs, intercalate_splitOn]
    by_cases hnil : qs = []
    · rw [hnil, append_nil, intercalate_splitOn] at hpath
      exact .inl hpath.symm
    · rw [intercalate_append _ _ (splitOn_ne_nil _ _) hnil, intercalate_splitOn] at hpath
      exact .inr ⟨_, hpath.symm⟩
  · intro h
    rcases h with rfl | ⟨rest, rfl⟩
    · exact prefix_refl _
    · rw [splitOn_append_cons_self]
      exact prefix_append _ _

theorem pathStartsWith_of_ne (h : point ≠ [slash]) : pathStartsWith path point = true ↔
    path = point ∨ ∃ rest, path = point ++ slash :: rest := by
  simp only [pathStartsWith, beq_eq_false_iff_ne.mpr h, Bool.false_or, Bool.and_eq_true,
    isPrefixOf_iff_prefix]
  constructor
  · intro ⟨⟨rest, hrest⟩, hnext⟩
    rw [← hrest, drop_left] at hnext
    cases rest with
    | nil => exact .inl (by rw [← hrest, append_nil])
    | cons c rest =>
      obtain rfl : c = slash := by simpa using hnext
      exact .inr ⟨rest, hrest.symm⟩
  · intro h
    rcases h with rfl | ⟨rest, rfl⟩
    · simp
    · simp

/-- `path_starts_with` compares components. -/
theorem pathStartsWith_iff_covers (hpath : path.head? = some slash) :
    pathStartsWith path point = true ↔ Covers point path := by
  obtain ⟨rest, rfl⟩ : ∃ rest, path = slash :: rest := by
    cases path with
    | nil => cases hpath
    | cons c rest => exact ⟨rest, by rw [some.inj hpath]⟩
  unfold Covers pathNames
  by_cases hroot : point = [slash]
  · have hfirst : [[]] <+: (slash :: rest).splitOn slash := by
      rw [splitOn_sep_cons]
      exact ⟨_, rfl⟩
    subst hroot
    simp only [pathStartsWith, beq_self_eq_true, Bool.true_or, if_true, true_iff]
    split
    · exact prefix_refl _
    · exact hfirst
  · rw [pathStartsWith_of_ne hroot, if_neg hroot]
    by_cases hrest : rest = []
    · -- below the root there is only the empty mount point
      subst hrest
      rw [if_pos rfl]
      constructor
      · intro h
        rcases h with h | ⟨rest, h⟩
        · exact absurd h.symm hroot
        · cases point with
          | nil => exact ⟨[], by rw [splitOn_nil]; rfl⟩
          | cons c cs => simp at h
      · intro h
        have hsplit := splitOn_isPrefix.mp (h.trans ⟨[[]], rfl⟩ : _ <+: [slash].splitOn slash)
        exact hsplit
    · rw [if_neg (by simpa using hrest), splitOn_isPrefix]

theorem splitOn_joined {names : List (List UInt8)} (h : ∀ name ∈ names, slash ∉ name) :
    (joined slash names).splitOn slash = [] :: names := by
  induction names with
  | nil => rfl
  | cons name names ih =>
    have hname := h name mem_cons_self
    have hrest := ih fun n hn => h n (mem_cons_of_mem name hn)
    rw [joined_cons, splitOn_sep_cons]
    cases names with
    | nil => rw [joined, flatMap_nil, append_nil, splitOn_eq_singleton hname]
    | cons next names =>
      rw [joined_cons, splitOn_sep_cons, cons.injEq] at hrest
      rw [joined_cons, splitOn_append_cons hname, hrest.2]

/-- The components of a normal path behind the first slash are names. -/
theorem pathNames_of_normal (hpath : normalForm path = path) :
    ∃ names, pathNames path = [] :: names ∧ ∀ name ∈ names, Proper name := by
  have hproper := proper_foldl [] (path.splitOn slash) (fun _ h => absurd h not_mem_nil)
    fun _ hc => not_mem_of_mem_splitOn hc
  rw [normalForm] at hpath
  refine ⟨_, ?_, hproper⟩
  generalize (path.splitOn slash).foldl keepName [] = names at hpath hproper
  rw [← hpath, absPath, pathNames]
  cases names with
  | nil => rfl
  | cons name names =>
    have hname := (hproper name mem_cons_self).whole.1
    rw [if_neg (cons_ne_nil name names), if_neg]
    · exact splitOn_joined fun n hn => (hproper n hn).whole.2
    · rw [joined_cons, cons.injEq, not_and]
      intro _ hnil
      exact hname (append_eq_nil_iff.mp hnil).1

/-- `strip_mount` gives the components below the mount point, as a path. -/
theorem stripMount_relative (hpath : normalForm path = path) (hcovers : Covers point path) :
    (stripMount path point).head? = some slash ∧
      pathNames path = pathNames point ++ (pathNames (stripMount path point)).tail := by
  have hhead : path.head? = some slash := by
    rw [← hpath]
    exact head?_normalForm path
  have hstarts := (pathStartsWith_iff_covers hhead).mpr hcovers
  obtain ⟨names, hnames, hproper⟩ := pathNames_of_normal hpath
  have hne : [] ∉ names := fun hnil => (hproper [] hnil).whole.1 rfl
  by_cases hroot : point = [slash]
  · subst hroot
    cases path with
    | nil => cases hhead
    | cons c rest =>
      obtain rfl := some.inj hhead
      cases rest with
      | nil => exact ⟨rfl, rfl⟩
      | cons d rest =>
        have hd : d ≠ slash := by
          intro heq
          rw [heq, pathNames, if_neg (by simp), splitOn_sep_cons, splitOn_sep_cons,
            cons.injEq] at hnames
          exact hne (hnames.2 ▸ mem_cons_self)
        have hstrip : stripMount (slash :: d :: rest) [slash] = slash :: d :: rest := by
          simp [stripMount, hd]
        rw [hstrip]
        refine ⟨rfl, ?_⟩
        rw [pathNames, if_neg (by simp), splitOn_sep_cons]
        rfl
  · rcases (pathStartsWith_of_ne hroot).mp hstarts with rfl | ⟨rest, rfl⟩
    · have hstrip : stripMount path path = [slash] := by simp [stripMount]
      rw [hstrip]
      exact ⟨rfl, by simp [pathNames]⟩
    · have hstrip : stripMount (point ++ slash :: rest) point = slash :: rest := by
        simp [stripMount]
      rw [hstrip]
      refine ⟨rfl, ?_⟩
      by_cases hrest : rest = []
      · -- a normal path does not end in a slash
        subst hrest
        cases hpoint : point with
        | nil => rfl
        | cons c cs =>
          rw [pathNames, if_neg (by simp [hpoint]), splitOn_append_cons_self,
            splitOn_nil] at hnames
          obtain ⟨first, others, hfirst⟩ :=
            exists_cons_of_ne_nil (splitOn_ne_nil slash point)
          rw [hfirst, cons_append, cons.injEq] at hnames
          exact absurd (hnames.2 ▸ mem_append_right _ mem_cons_self) hne
      · have hlong : point ++ slash :: rest ≠ [slash] := by
          intro heq
          have hlen := congrArg length heq
          have := length_pos_of_ne_nil hrest
          simp only [length_append, length_cons, length_nil] at hlen
          omega
        have hbelow : slash :: rest ≠ [slash] := by simpa using hrest
        simp only [pathNames, if_neg hlong, if_neg hroot, if_neg hbelow]
        rw [splitOn_append_cons_self, splitOn_sep_cons, tail_cons]

/-! ## The order of the slots -/

namespace MountTable

/-- The longer path comes first, then the mount with a block device, then the lower index. -/
def rank (t : MountTable) (i : Slot) : ℕᵒᵈ ×ₗ Bool ×ₗ Slot :=
  toLex (OrderDual.toDual (t i).path.length, toLex (!(t i).deviceBdev.isSome, i))

/-- The slots whose mounts cover a path, by their index. -/
def covering (t : MountTable) (path : List UInt8) : List Slot :=
  (List.finRange vfsMaxMounts).filter fun i => (t i).used && decide (Covers (t i).path path)

/-- Of the slots that cover a path, the first `max` rank before all others. -/
def FirstAreBest (t : MountTable) (path : List UInt8) (max : ℕ) : Prop :=
  ∀ i ∈ (t.covering path).take max, ∀ j ∈ (t.covering path).drop max, t.rank i < t.rank j

instance (t : MountTable) (path : List UInt8) (max : ℕ) : Decidable (t.FirstAreBest path max) :=
  inferInstanceAs (Decidable (∀ _ ∈ _, ∀ _ ∈ _, _))

/-- `find_mounts` returns the first of the covering mounts in their order, so the first one has
the longest path, and `strip_mount` gives the rest of the path below each of them. -/
structure Selects (t : MountTable) (path : List UInt8) (max : ℕ) : Prop where
  first : t.findMounts path max = (ranking t.rank (t.covering path)).take max
  longest : ∀ i, (t.findMounts path max).head? = some i → ∀ j ∈ t.covering path,
    (t j).path.length ≤ (t i).path.length
  relative : ∀ i ∈ t.findMounts path max, (stripMount path (t i).path).head? = some slash ∧
    pathNames path = pathNames (t i).path ++ (pathNames (stripMount path (t i).path)).tail

variable {t : MountTable} {i j : Slot} {max : ℕ}

theorem rank_injective (t : MountTable) : Function.Injective t.rank := by
  intro i j h
  have h2 := congrArg (fun r => (ofLex (ofLex r).2).2) h
  exact h2

theorem rank_lt : t.rank i < t.rank j ↔ (t j).path.length < (t i).path.length ∨
    (t i).path.length = (t j).path.length ∧
      ((!(t i).deviceBdev.isSome) < (!(t j).deviceBdev.isSome) ∨
        (!(t i).deviceBdev.isSome) = (!(t j).deviceBdev.isSome) ∧ i < j) := by
  simp only [rank, Prod.Lex.toLex_lt_toLex, OrderDual.toDual_lt_toDual, OrderDual.toDual_inj]

/-- The test of the inner loop compares the ranks. -/
theorem precedes_eq_rank (t : MountTable) (i j : Slot) :
    t.precedes i j = decide (t.rank i < t.rank j) := by
  rw [Bool.eq_iff_iff, decide_eq_true_iff, rank_lt]
  cases hi : (t i).deviceBdev.isSome <;> cases hj : (t j).deviceBdev.isSome <;>
    simp [precedes, hi, hj]

theorem path_length_le_of_rank (h : t.rank i ≤ t.rank j) :
    (t j).path.length ≤ (t i).path.length := by
  have h1 := Prod.Lex.monotone_fst _ _ h
  exact OrderDual.toDual_le_toDual.mp h1

section

variable (hpath : path.head? = some slash)

include hpath

/-- The loop puts every slot that matches into its place, until the array is full. -/
theorem collect_ranked (rest out : List Slot) (hout : Ranked t.rank out) (hroom : out.length < max) :
    Ranked t.rank (t.collect path max rest out) ∧
      (t.collect path max rest out).Perm (out ++
        (rest.filter fun i => (t i).used && decide (Covers (t i).path path)).take
          (max - out.length)) := by
  induction rest generalizing out with
  | nil => exact ⟨hout, by simp [collect]⟩
  | cons i rest ih =>
    have hmatch : ((t i).used && decide (Covers (t i).path path)) =
        ((t i).used && pathStartsWith path (t i).path) := by
      congr 1
      rw [Bool.eq_iff_iff, decide_eq_true_iff, pathStartsWith_iff_covers hpath]
    rw [filter_cons, hmatch]
    by_cases hused : (t i).used = true
    · by_cases hstarts : pathStartsWith path (t i).path = true
      · have hplace : out.insertIdx (out.findIdx (t.precedes i)) i = place t.rank i out := by
          unfold place
          congr 2
          funext j
          exact precedes_eq_rank t i j
        have hpos : ¬max ≤ out.findIdx (t.precedes i) := by
          have hle : out.findIdx (t.precedes i) ≤ out.length := findIdx_le_length
          omega
        have hperm : (place t.rank i out).Perm (i :: out) := place_perm out
        have hlen : (place t.rank i out).length = out.length + 1 := hperm.length_eq
        obtain ⟨n, hn⟩ : ∃ n, max - out.length = n + 1 := ⟨max - out.length - 1, by omega⟩
        simp only [collect, hused, hstarts, Bool.not_true, Bool.false_eq_true, if_false, hplace,
          if_neg hpos, hlen, Bool.and_self, if_true, hn, take_succ_cons]
        have hmiddle (l : List Slot) : (place t.rank i out ++ l).Perm (out ++ i :: l) :=
          (hperm.append_right l).trans perm_middle.symm
        by_cases hfull : max ≤ out.length + 1
        · obtain rfl : n = 0 := by omega
          rw [if_pos hfull]
          refine ⟨ranked_place hout, ?_⟩
          simpa using hmiddle []
        · rw [if_neg hfull]
          obtain ⟨hranked, hall⟩ := ih (place t.rank i out) (ranked_place hout) (by omega)
          refine ⟨hranked, hall.trans ?_⟩
          rw [hlen, show max - (out.length + 1) = n by omega]
          exact hmiddle _
      · have hskip : pathStartsWith path (t i).path = false := Bool.eq_false_iff.mpr hstarts
        simp only [collect, hused, hskip, Bool.not_true, Bool.not_false, Bool.false_eq_true,
          if_false, if_true, Bool.and_false]
        exact ih out hout hroom
    · have hskip : (t i).used = false := Bool.eq_false_iff.mpr hused
      simp only [collect, hskip, Bool.not_false, if_true, Bool.false_and, Bool.false_eq_true,
        if_false]
      exact ih out hout hroom

/-- `find_mounts` ranks the first slots that cover the path. -/
theorem findMounts_eq (hmax : 1 ≤ max) :
    t.findMounts path max = ranking t.rank ((t.covering path).take max) := by
  obtain ⟨hranked, hperm⟩ := collect_ranked (t := t) hpath (finRange vfsMaxMounts) []
    List.Pairwise.nil hmax
  apply eq_of_ranked t.rank_injective hranked (ranked_ranking _)
  exact hperm.trans (ranking_perm _).symm

theorem findMounts_covering (hmax : 1 ≤ max) (h : i ∈ t.findMounts path max) :
    i ∈ (t.covering path).take max := by
  rw [findMounts_eq hpath hmax] at h
  exact (ranking_perm _).mem_iff.mp h

end

theorem covers_of_mem (h : i ∈ t.covering path) : Covers (t i).path path := by
  have hboth := (mem_filter.mp h).2
  exact of_decide_eq_true (Bool.and_eq_true_iff.mp hboth).2

/-- The first of the mounts has the longest path among those that were ranked. -/
theorem head_longest (hpath : path.head? = some slash) (hmax : 1 ≤ max)
    (h : (t.findMounts path max).head? = some i) (hj : j ∈ (t.covering path).take max) :
    (t j).path.length ≤ (t i).path.length := by
  have hranked : Ranked t.rank (ranking t.rank ((t.covering path).take max)) := ranked_ranking _
  have hmem : j ∈ ranking t.rank ((t.covering path).take max) := (ranking_perm _).mem_iff.mpr hj
  rw [findMounts_eq hpath hmax] at h
  cases hl : ranking t.rank ((t.covering path).take max) with
  | nil =>
    rw [hl] at h
    cases h
  | cons k l =>
    rw [hl] at h hranked hmem
    obtain rfl := some.inj h
    rcases mem_cons.mp hmem with rfl | hmem
    · exact Nat.le_refl _
    · exact path_length_le_of_rank ((pairwise_cons.mp hranked).1 j hmem)

theorem covering_nodup (t : MountTable) (path : List UInt8) : (t.covering path).Nodup :=
  (nodup_finRange vfsMaxMounts).filter _

/-- The first slots are all that cover the path, or they fill the array. -/
theorem first_iff_best (hpath : path.head? = some slash) (hmax : 1 ≤ max) :
    t.findMounts path max = (ranking t.rank (t.covering path)).take max ↔
      t.FirstAreBest path max := by
  rw [findMounts_eq hpath hmax, FirstAreBest]
  by_cases hfew : (t.covering path).length ≤ max
  · have hlen : (ranking t.rank (t.covering path)).length ≤ max :=
      Nat.le_trans (Nat.le_of_eq (ranking_perm _).length_eq) hfew
    rw [take_of_length_le hfew, take_of_length_le hlen, drop_of_length_le hfew]
    exact ⟨fun _ _ _ j hj => absurd hj not_mem_nil, fun _ => rfl⟩
  · have hnodup := covering_nodup t path
    have hcut := (take_append_drop max (t.covering path)).symm
    have hlen : ((t.covering path).take max).length = max := by
      rw [length_take]
      omega
    rw [hcut] at hnodup
    have hiff := ranking_take t.rank_injective hnodup hlen
    rwa [← hcut] at hiff

/-- For every mount table, normal path and length of the array, `find_mounts` selects the best
mounts in their order exactly when no covering slot behind the first `max` ranks before one of
these. `find_mount` returns a mount with the longest path exactly when one of the first four
slots has it. -/
theorem findMounts_selects (t : MountTable) (path : List UInt8) (max : ℕ)
    (hpath : normalForm path = path) (hmax : 1 ≤ max) :
    (t.Selects path max ↔ t.FirstAreBest path max) ∧
      (t.findMount path = none ↔ t.covering path = []) ∧
      ∀ i, t.findMount path = some i →
        ((∀ j ∈ t.covering path, (t j).path.length ≤ (t i).path.length) ↔
          ∀ j ∈ (t.covering path).drop 4, ∃ k ∈ (t.covering path).take 4,
            (t j).path.length ≤ (t k).path.length) ∧
        (stripMount path (t i).path).head? = some slash ∧
        pathNames path = pathNames (t i).path ++ (pathNames (stripMount path (t i).path)).tail := by
  have hhead : path.head? = some slash := by
    rw [← hpath]
    exact head?_normalForm path
  have hrelative {n : ℕ} (hn : 1 ≤ n) {i : Slot} (hi : i ∈ t.findMounts path n) :=
    stripMount_relative hpath (covers_of_mem (mem_of_mem_take (findMounts_covering hhead hn hi)))
  constructor
  · constructor
    · intro h
      exact (first_iff_best hhead hmax).mp h.first
    · intro h
      have hfirst := (first_iff_best hhead hmax).mpr h
      refine ⟨hfirst, ?_, fun i hi => hrelative hmax hi⟩
      intro i hi j hj
      rcases mem_append.mp ((take_append_drop max (t.covering path)).symm ▸ hj) with hj | hj
      · exact head_longest hhead hmax hi hj
      · have hmem := findMounts_covering hhead hmax (mem_of_mem_head? hi)
        exact path_length_le_of_rank (le_of_lt (h i hmem j hj))
  · constructor
    · rw [findMount, head?_eq_none_iff, findMounts_eq hhead (by decide)]
      have hlen : (ranking t.rank ((t.covering path).take 4)).length = _ :=
        (ranking_perm _).length_eq
      rw [← length_eq_zero_iff, hlen, length_eq_zero_iff, take_eq_nil_iff]
      simp
    · intro i hi
      have hmem := mem_of_mem_head? hi
      refine ⟨?_, hrelative (by decide) hmem⟩
      have hone {j : Slot} (hj : j ∈ (t.covering path).take 4) :=
        head_longest hhead (by decide) hi hj
      constructor
      · intro h j hj
        exact ⟨i, findMounts_covering hhead (by decide) hmem, h j (mem_of_mem_drop hj)⟩
      · intro h j hj
        rcases mem_append.mp ((take_append_drop 4 (t.covering path)).symm ▸ hj) with hj | hj
        · exact hone hj
        · obtain ⟨k, hk, hle⟩ := h j hj
          exact Nat.le_trans hle (hone hk)

/-- A mount at `"/m"` in the first slot, and four at `"/"` behind it. -/
def longestFirst : MountTable := fun i =>
  if i.val = 0 then { rootMount with path := [47, 109], path_fits := by decide }
  else if i.val < 5 then rootMount
  else Mount.zero

/-- One of the five mounts that cover `"/m/a"` has no room, and it is the last in the order. -/
theorem findMounts_selects_longestFirst :
    (longestFirst.covering [47, 109, 47, 97]).length = 5 ∧
      longestFirst.Selects [47, 109, 47, 97] 4 :=
  ⟨by decide +kernel, (findMounts_selects longestFirst [47, 109, 47, 97] 4 (by decide +kernel)
    (by decide)).1.mpr (by decide +kernel)⟩

/-- Four mounts at `"/"` in the first slots, and one at `"/m"` behind them. -/
def crowded : MountTable := fun i =>
  if i.val < 4 then rootMount
  else if i.val = 4 then { rootMount with path := [47, 109], path_fits := by decide }
  else Mount.zero

/-- The slot of the mount at `"/m"`. -/
def crowdedOut : Slot := ⟨4, by decide⟩

/-- `find_mounts` is full before it comes to the mount at `"/m"`, so `find_mount` takes the root
for a path below `"/m"`. -/
theorem crowded_misses_longest :
    (crowded.findMounts [47, 109, 47, 97] 4).map Fin.val = [0, 1, 2, 3] ∧
      crowded.findMount [47, 109, 47, 97] = some rootSlot ∧
      crowdedOut ∈ crowded.covering [47, 109, 47, 97] ∧
      (crowded rootSlot).path.length < (crowded crowdedOut).path.length ∧
      ¬crowded.Selects [47, 109, 47, 97] 4 := by
  have hlong : crowdedOut ∈ crowded.covering [47, 109, 47, 97] := by decide +kernel
  have hhead : (crowded.findMounts [47, 109, 47, 97] 4).head? = some rootSlot := by
    decide +kernel
  have hshorter : (crowded rootSlot).path.length < (crowded crowdedOut).path.length := by
    decide +kernel
  refine ⟨by decide +kernel, hhead, hlong, hshorter, ?_⟩
  intro h
  have hle := h.longest rootSlot hhead crowdedOut hlong
  omega

end MountTable

end Crius.Fs
