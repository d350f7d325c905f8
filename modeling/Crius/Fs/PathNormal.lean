import Crius.Fs.Path
import Crius.Lib.Separated

/-!
# The normal form of a path

`resolve_abs` normalises in place: a `".."` backs up over the output buffer, and input and
output have separate limits. The result is stated over the list of components instead. The
output never reaches its limit, because the names that are left need no more room than the
path they come from.
-/
namespace Crius.Fs

open Lib.Separated List Option
open Ramfs (slash dot components)

/-- What one component does to the names kept so far. -/
def keepName (names : List (List UInt8)) (comp : List UInt8) : List (List UInt8) :=
  if comp = [] ∨ comp = [dot] then names
  else if comp = [dot, dot] then names.dropLast
  else names ++ [comp]

/-- The absolute path with the given names. -/
def absPath (names : List (List UInt8)) : List UInt8 :=
  if names = [] then [slash] else joined slash names

/-- The normal form of an absolute path. -/
def normalForm (full : List UInt8) : List UInt8 :=
  absPath ((full.splitOn slash).foldl keepName [])

/-- The path that is normalised: nothing stands between the root directory and a relative path. -/
def fullPath (cwd path : List UInt8) : List UInt8 :=
  if path.head? = some slash then path.take 255
  else if cwd = [slash] then (slash :: path).take 255
  else (cwd ++ slash :: path).take 255

/-- A name that stays in a normal form. -/
structure Proper (name : List UInt8) : Prop where
  whole : Whole slash name
  not_dot : name ≠ [dot]
  not_dots : name ≠ [dot, dot]

variable {names comps : List (List UInt8)} {comp full cwd path : List UInt8} {size : ℕ}

theorem components_eq_parts (path : List UInt8) : components path = parts slash path := rfl

/-! ## Names -/

theorem keepName_of_proper (h : Proper comp) : keepName names comp = names ++ [comp] := by
  have hskip : ¬(comp = [] ∨ comp = [dot]) := by
    rintro (hnil | hdot)
    · exact h.whole.1 hnil
    · exact h.not_dot hdot
  rw [keepName, if_neg hskip, if_neg h.not_dots]

theorem proper_keepName (hnames : ∀ name ∈ names, Proper name) (hcomp : slash ∉ comp) :
    ∀ name ∈ keepName names comp, Proper name := by
  intro name hname
  unfold keepName at hname
  split at hname
  · exact hnames name hname
  · next hskip =>
    split at hname
    · exact hnames name (mem_of_mem_dropLast hname)
    · next hdots =>
      rcases mem_append.mp hname with hname | hname
      · exact hnames name hname
      · rw [mem_singleton.mp hname]
        exact ⟨⟨fun hnil => hskip (.inl hnil), hcomp⟩, fun hdot => hskip (.inr hdot), hdots⟩

theorem proper_foldl (names comps : List (List UInt8)) (hnames : ∀ name ∈ names, Proper name)
    (hcomps : ∀ comp ∈ comps, slash ∉ comp) : ∀ name ∈ comps.foldl keepName names, Proper name := by
  induction comps generalizing names with
  | nil => exact hnames
  | cons comp comps ih =>
    apply ih _ (proper_keepName hnames (hcomps comp mem_cons_self))
    intro c hc
    exact hcomps c (mem_cons_of_mem comp hc)

/-- Names that are proper already stay as they are. -/
theorem foldl_proper (hcomps : ∀ comp ∈ comps, Proper comp) :
    comps.foldl keepName names = names ++ comps := by
  induction comps generalizing names with
  | nil => exact (append_nil names).symm
  | cons comp comps ih =>
    rw [foldl_cons, keepName_of_proper (hcomps comp mem_cons_self),
      ih fun c hc => hcomps c (mem_cons_of_mem comp hc), append_assoc,
      singleton_append]

/-- Empty components are skipped. -/
theorem foldl_filter : (comps.filter (· ≠ [])).foldl keepName names = comps.foldl keepName names := by
  induction comps generalizing names with
  | nil => rfl
  | cons comp comps ih =>
    by_cases hnil : comp = []
    · have hkeep : keepName names comp = names := if_pos (.inl hnil)
      rw [filter_cons_of_neg (by simpa using hnil), ih, foldl_cons, hkeep]
    · rw [filter_cons_of_pos (by simpa using hnil), foldl_cons, ih, foldl_cons]

theorem normalForm_eq (full : List UInt8) :
    normalForm full = absPath ((components full).foldl keepName []) := by
  rw [normalForm, components, foldl_filter]

theorem keepName_length (names : List (List UInt8)) (comp : List UInt8) :
    (joined slash (keepName names comp)).length ≤
    (joined slash names).length + comp.length + 1 := by
  unfold keepName
  split
  · omega
  · split
    · rcases eq_nil_or_concat names with rfl | ⟨init, last, rfl⟩
      · simp [joined]
      · rw [concat_eq_append, dropLast_concat, joined_append, length_append]
        omega
    · rw [joined_append, joined_singleton, length_append, length_cons]
      omega

/-! ## The output buffer -/

theorem absPath_concat (name : List UInt8) :
    absPath (names ++ [name]) = joined slash names ++ slash :: name := by
  rw [absPath, if_neg (by simp), joined_append, joined_singleton]

/-- Backing up over the output removes the last name. -/
theorem popName_absPath (hnames : ∀ name ∈ names, slash ∉ name) :
    popName (absPath names) = absPath names.dropLast := by
  rcases eq_nil_or_concat names with rfl | ⟨init, last, rfl⟩
  · rfl
  · rw [concat_eq_append] at hnames ⊢
    have hlast (b : UInt8) (hb : b ∈ last.reverse) : decide (b ≠ slash) = true := by
      have hslash := hnames last (mem_append_right init mem_cons_self)
      exact decide_eq_true fun heq => hslash (heq ▸ mem_reverse.mp hb)
    rw [absPath_concat, dropLast_concat, popName]
    cases init with
    | nil =>
      have hall : last.reverse.dropWhile (· ≠ slash) = [] := by
        rw [← append_nil last.reverse, dropWhile_append_of_pos hlast, dropWhile_nil]
      rw [joined, flatMap_nil, nil_append, tail_cons, hall]
      rfl
    | cons first rest =>
      rw [joined_cons, cons_append, tail_cons, reverse_append, reverse_cons,
        append_assoc, dropWhile_append_of_pos hlast, singleton_append,
        dropWhile_cons_of_neg (by simp), reverse_cons, reverse_reverse,
        dropLast_concat, absPath, if_neg (cons_ne_nil first rest), joined_cons]

/-- The slash that goes before a new name. -/
theorem absPath_slash (hnames : ∀ name ∈ names, Proper name)
    (hroom : (joined slash names).length + 1 < size) :
    (if 1 < (absPath names).length ∧ (absPath names).getLast? ≠ some slash ∧
      (absPath names).length < size - 1 then absPath names ++ [slash] else absPath names) =
      joined slash names ++ [slash] := by
  rcases eq_nil_or_concat names with rfl | ⟨init, last, rfl⟩
  · exact if_neg fun h => absurd h.1 (by decide)
  · rw [concat_eq_append] at hnames hroom ⊢
    obtain ⟨hne, hslash⟩ := (hnames last (mem_append_right init mem_cons_self)).whole
    have hbytes : absPath (init ++ [last]) = joined slash (init ++ [last]) := by
      rw [absPath, if_neg (by simp)]
    have hlast : (joined slash (init ++ [last])).getLast? = some (last.getLast hne) := by
      rw [joined_append, joined_singleton, getLast?_append_cons, getLast?_cons,
        getLast?_eq_some_getLast hne, getD_some]
    rw [hbytes, if_pos]
    refine ⟨?_, ?_, by omega⟩
    · have := length_pos_of_ne_nil hne
      rw [joined_append, joined_singleton, length_append, length_cons]
      omega
    · rw [hlast]
      intro heq
      exact hslash (some.inj heq ▸ getLast_mem hne)

theorem pushName_absPath (hnames : ∀ name ∈ names, Proper name) (hcomp : Whole slash comp)
    (hroom : (joined slash names).length + comp.length + 1 < size) :
    pushName size (absPath names) comp = absPath (keepName names comp) := by
  unfold pushName keepName
  by_cases hdot : comp = [dot]
  · rw [if_pos hdot, if_pos (.inr hdot)]
  · have hkept : ¬(comp = [] ∨ comp = [dot]) := fun h => h.elim hcomp.1 hdot
    rw [if_neg hdot, if_neg hkept]
    by_cases hdots : comp = [dot, dot]
    · rw [if_pos hdots, if_pos hdots]
      exact popName_absPath fun name hname => (hnames name hname).whole.2
    · have hall : comp.length ≤ size - 1 - (joined slash names ++ [slash]).length := by
        rw [length_append, length_singleton]
        omega
      rw [if_neg hdots, if_neg hdots, absPath_concat]
      dsimp only
      rw [absPath_slash hnames (by omega), take_of_length_le hall, append_assoc,
        singleton_append]

/-- The rounds of `resolve_abs`, as long as the names and the components left fit together. -/
theorem foldl_pushName (names comps : List (List UInt8)) (hnames : ∀ name ∈ names, Proper name)
    (hcomps : ∀ comp ∈ comps, Whole slash comp)
    (hroom : (joined slash names).length + (joined slash comps).length < size) :
    comps.foldl (pushName size) (absPath names) = absPath (comps.foldl keepName names) := by
  induction comps generalizing names with
  | nil => rfl
  | cons comp comps ih =>
    have hcomp := hcomps comp mem_cons_self
    rw [joined_cons, length_cons, length_append] at hroom
    have hlen := keepName_length names comp
    rw [foldl_cons, foldl_cons, pushName_absPath hnames hcomp (by omega)]
    apply ih _ (proper_keepName hnames hcomp.2)
    · intro c hc
      exact hcomps c (mem_cons_of_mem comp hc)
    · omega

/-- What is left of an absolute path is not longer than the path. -/
theorem joined_components_length (hfull : full.head? = some slash) :
    (joined slash (components full)).length ≤ full.length := by
  cases full with
  | nil => cases hfull
  | cons c rest =>
    obtain rfl := some.inj hfull
    rw [components_eq_parts, parts_sep_cons]
    exact joined_parts_length

theorem foldl_keepName_length (names comps : List (List UInt8)) :
    (joined slash (comps.foldl keepName names)).length ≤
    (joined slash names).length + (joined slash comps).length := by
  induction comps generalizing names with
  | nil => exact Nat.le_refl _
  | cons comp comps ih =>
    have hstep := keepName_length names comp
    have hrest := ih (keepName names comp)
    rw [foldl_cons, joined_cons, length_cons, length_append]
    omega

theorem normalForm_length (hfull : full.head? = some slash) (hlen : full.length ≤ 255) :
    (normalForm full).length ≤ 255 := by
  have hall := joined_components_length hfull
  have hkept := foldl_keepName_length [] (components full)
  have hnil : (joined slash []).length = 0 := rfl
  rw [normalForm_eq, absPath]
  split
  · exact Nat.le_add_left 1 254
  · omega

theorem resolve_eq_normalForm (hfull : full.head? = some slash) (hlen : full.length < size) :
    (components full).foldl (pushName size) [slash] = normalForm full := by
  have hroom := joined_components_length hfull
  have hnil : (joined slash []).length = 0 := rfl
  rw [normalForm_eq]
  exact foldl_pushName [] _ (fun _ h => absurd h not_mem_nil)
    (fun _ hc => whole_of_mem_parts hc) (by omega)

theorem head?_normalForm (full : List UInt8) : (normalForm full).head? = some slash := by
  rw [normalForm, absPath]
  split
  · rfl
  · next hne =>
    obtain ⟨first, rest, heq⟩ := exists_cons_of_ne_nil hne
    rw [heq, joined_cons, head?_cons]

theorem normalForm_normalForm (full : List UInt8) : normalForm (normalForm full) = normalForm full := by
  have hproper := proper_foldl [] (components full)
    (fun _ h => absurd h not_mem_nil) fun _ hc => (whole_of_mem_parts hc).2
  rw [normalForm_eq (normalForm full), normalForm_eq full]
  generalize (components full).foldl keepName [] = names at hproper
  have hcut : components (absPath names) = names := by
    rw [absPath]
    split
    · next hnil => rw [hnil]; rfl
    · exact parts_joined fun name hname => (hproper name hname).whole
  rw [hcut, foldl_proper hproper, nil_append]

/-! ## The full path -/

theorem joinCwd_eq_fullPath (hcwd : cwd.head? = some slash) (hlen : cwd.length ≤ 127) :
    joinCwd (some cwd) path = fullPath cwd path := by
  have hdir : workingDir (some cwd) = cwd := by
    cases cwd with
    | nil => cases hcwd
    | cons c rest => rfl
  rw [joinCwd, hdir, fullPath, take_of_length_le (by omega : cwd.length ≤ 254),
    take_succ_cons]

theorem head?_take {l : List UInt8} {n : ℕ} (h : l.head? = some slash) :
    (l.take (n + 1)).head? = some slash := by
  cases l with
  | nil => cases h
  | cons c rest => exact h

theorem fullPath_spec (path : List UInt8) (hcwd : cwd.head? = some slash) :
    (fullPath cwd path).head? = some slash ∧ (fullPath cwd path).length ≤ 255 := by
  unfold fullPath
  split
  · next habs => exact ⟨head?_take habs, length_take_le 255 _⟩
  · split
    · exact ⟨rfl, length_take_le 255 _⟩
    · refine ⟨head?_take ?_, length_take_le 255 _⟩
      rw [head?_append, hcwd]
      rfl

theorem resolveAbs_of_abs {p : List UInt8} (habs : p.head? = some slash) (hlen : p.length ≤ 255)
    (dir : Option (List UInt8)) : resolveAbs 256 dir p = normalForm p := by
  rw [resolveAbs, joinCwd, if_pos habs, take_of_length_le hlen]
  exact resolve_eq_normalForm habs (by omega)

/-- `resolve_abs` gives the normal form of the full path, in its 256 bytes, and the result
resolves to itself in every directory. -/
theorem resolveAbs_normalForm (cwd path : List UInt8) (hcwd : cwd.head? = some slash)
    (hlen : cwd.length ≤ 127) :
    resolveAbs 256 (some cwd) path = normalForm (fullPath cwd path) ∧
      (resolveAbs 256 (some cwd) path).length < 256 ∧
      ∀ dir, resolveAbs 256 dir (resolveAbs 256 (some cwd) path) =
        resolveAbs 256 (some cwd) path := by
  obtain ⟨habs, hfit⟩ := fullPath_spec path hcwd
  have hres : resolveAbs 256 (some cwd) path = normalForm (fullPath cwd path) := by
    rw [resolveAbs, joinCwd_eq_fullPath hcwd hlen]
    exact resolve_eq_normalForm habs (by omega)
  have hshort := normalForm_length habs hfit
  rw [hres]
  refine ⟨rfl, by omega, fun dir => ?_⟩
  rw [resolveAbs_of_abs (head?_normalForm _) hshort dir, normalForm_normalForm]

/-- `"b//./c"` in `"/h"` is `"/h/b/c"`. -/
theorem resolveAbs_in_dir :
    resolveAbs 256 (some [slash, 104]) [98, slash, slash, dot, slash, 99] =
      [slash, 104, slash, 98, slash, 99] :=
  (resolveAbs_normalForm [slash, 104] [98, slash, slash, dot, slash, 99] rfl (by decide)).1.trans
    (by decide +kernel)

/-- The directory, a slash and the path, also when the directory is the root. -/
def joinedPath (cwd path : List UInt8) : List UInt8 :=
  if path.head? = some slash then path.take 255 else (cwd ++ slash :: path).take 255

/-- In the root directory `resolve_abs` does not write the second slash, so that a relative path
of 254 bytes is not cut. -/
theorem resolveAbs_root_long :
    resolveAbs 256 (some [slash]) (List.replicate 254 97) ≠
      normalForm (joinedPath [slash] (List.replicate 254 97)) := by
  decide +kernel

end Crius.Fs
