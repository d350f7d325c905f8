import Mathlib.Data.List.Forall2
import Mathlib.Data.List.TakeWhile

/-!
# Splitting a command line into words

The first part of `shell_exec` of nexus/shell/shell_exec.c, which cuts the line in place and
collects pointers to the words in `argv`.
-/

namespace Crius.Shell

open List

/-- `PROG_MAX_ARGS` -/
def progMaxArgs : Nat := 16

/-- The locals of `shell_exec`. The line is kept as the bytes before `p` and those from `p` on,
without the closing NUL; `argv` has the slots stored so far (offsets into the line, `none` for
`NULL`) and `cuts` the bytes of the line that were overwritten. -/
structure Split where
  pre : List UInt8
  rest : List UInt8
  argv : List (Option Nat)
  cuts : List Nat

namespace Split

def buf (s : Split) : List UInt8 := s.pre ++ s.rest ++ [0]

def p (s : Split) : Nat := s.pre.length

/-- `*p` -/
def char (s : Split) : UInt8 := s.rest.headD 0

/-- `while (f(*p)) p++`, for an `f` that a NUL stops -/
def skip (f : UInt8 → Bool) (s : Split) : Split :=
  { s with pre := s.pre ++ s.rest.takeWhile f, rest := s.rest.dropWhile f }

/-- `argv[argc++] = q` -/
def push (s : Split) (q : Option Nat) : Split := { s with argv := s.argv ++ [q] }

/-- `if (*p) *p++ = '\0'` -/
def cut (s : Split) : Split :=
  if s.char = 0 then s
  else { s with pre := s.pre ++ [0], rest := s.rest.tail, cuts := s.cuts ++ [s.p] }

end Split

def isSpace (c : UInt8) : Bool := c == 32

def inWord (c : UInt8) : Bool := c != 0 && c != 32

/-- The loop of `shell_exec`; the number counts the slots `argc` has not reached. -/
def splitLoop : Nat → Split → Split
  | 0, s => s
  | free + 1, s =>
    if s.char = 0 then s
    else
      let s := s.skip isSpace
      if s.char = 0 then s else splitLoop free ((s.push (some s.p)).skip inWord).cut

/-- `shell_exec` up to `argv[argc] = NULL`. -/
def shellExec (line : List UInt8) : Split :=
  let s := splitLoop progMaxArgs ⟨[], line, [], []⟩
  if s.argv = [] then s else s.push none

/-- The maximal space-free words of a line. -/
def words (line : List UInt8) : List (List UInt8) := (line.splitOnP isSpace).filter (· ≠ [])

/-- The word `w` stands at `q`, with a NUL at its end. -/
def WordAt (buf : List UInt8) (q : Nat) (w : List UInt8) : Prop :=
  ∃ tail, buf.drop q = w ++ 0 :: tail

variable {c : UInt8} {l : List UInt8} {s r : Split} {free : Nat}

theorem inWord_iff : inWord c ↔ c ≠ 0 ∧ isSpace c = false := by
  simp [inWord, isSpace]

theorem dropWhile_eq_cons {f : UInt8 → Bool} {t : List UInt8} {d : UInt8}
    (h : l.dropWhile f = d :: t) : f d = false ∧ d :: t ⊆ l := by
  have hne : l.dropWhile f ≠ [] := h ▸ cons_ne_nil d t
  refine ⟨?_, h ▸ (dropWhile_suffix f).subset⟩
  simpa [h] using head_dropWhile_not f hne

theorem words_dropWhile (l : List UInt8) : words (l.dropWhile isSpace) = words l := by
  induction l with
  | nil => rfl
  | cons c l ih =>
    cases hc : isSpace c with
    | false => simp [hc]
    | true =>
      rw [dropWhile_cons_of_pos hc, ih, words, words, ← nil_append (c :: l),
        splitOnP_append_cons [] l hc]
      simp

/-- A line that starts with a word: the word, and what follows the byte that ends it. -/
theorem words_cons (hnul : 0 ∉ l) (hc : inWord c) :
    words (c :: l) = (c :: l.takeWhile inWord) :: words (l.dropWhile inWord).tail := by
  have hall : ∀ x ∈ c :: l.takeWhile inWord, isSpace x = false := by
    intro x hx
    rcases mem_cons.mp hx with rfl | hx
    · exact (inWord_iff.mp hc).2
    · exact (inWord_iff.mp (mem_takeWhile_imp hx)).2
  have hline : c :: l = (c :: l.takeWhile inWord) ++ l.dropWhile inWord := by simp
  rw [hline]
  cases hd : l.dropWhile inWord with
  | nil => simp [words, splitOnP_eq_singleton hall]
  | cons d t =>
    -- The line has no NUL, so that only a space ends the word.
    obtain ⟨hend, hmem⟩ := dropWhile_eq_cons hd
    have hd0 : d ≠ 0 := fun h => hnul (h ▸ hmem mem_cons_self)
    have hsep : isSpace d := by
      by_contra h
      simp [inWord_iff.mpr ⟨hd0, by simpa using h⟩] at hend
    rw [words, splitOnP_append_cons_of_forall_mem hall d hsep]
    simp [words]

/-- What the loop does with `free` slots left. -/
structure Fills (free : Nat) (s r : Split) (ptrs : List Nat) : Prop where
  buf : ∃ post, r.buf = s.pre ++ post
  argv : r.argv = s.argv ++ ptrs.map some
  word : Forall₂ (WordAt r.buf) ptrs ((words s.rest).take free)
  cuts : ∀ p ∈ r.cuts, p ∈ s.cuts ∨ p < (s.pre ++ s.rest).length

theorem char_eq_zero (hnul : 0 ∉ s.rest) : s.char = 0 ↔ s.rest = [] := by
  cases h : s.rest <;> simp_all [Split.char, eq_comm]

theorem Fills.none (hend : (words s.rest).take free = []) : Fills free s s [] where
  buf := ⟨s.rest ++ [0], append_assoc ..⟩
  argv := by simp
  word := by simp [hend]
  cuts _ hp := .inl hp

theorem Fills.of_skip {ptrs : List Nat} (h : Fills free (s.skip isSpace) r ptrs) :
    Fills free s r ptrs where
  buf := by
    obtain ⟨post, hpost⟩ := h.buf
    exact ⟨s.rest.takeWhile isSpace ++ post, by simp [hpost, Split.skip]⟩
  argv := h.argv
  word := words_dropWhile s.rest ▸ h.word
  cuts p hp := by simpa [Split.skip, ← length_append] using h.cuts p hp

theorem splitLoop_nil (hend : s.rest = []) : splitLoop free s = s := by
  cases free with
  | zero => rfl
  | succ free => rw [splitLoop, Split.char, hend, headD_nil, if_pos rfl]

/-- One word of the line, with the byte that ends it. -/
theorem Fills.cons (hrest : s.rest = c :: l) (hnul : 0 ∉ l) (hc : inWord c)
    (ih : ∀ s : Split, 0 ∉ s.rest → ∃ ptrs, Fills free s (splitLoop free s) ptrs) :
    ∃ ptrs, Fills (free + 1) s (splitLoop free ((s.push (some s.p)).skip inWord).cut) ptrs := by
  have hwords := words_cons hnul hc
  have hlen := congrArg length (takeWhile_append_dropWhile (p := inWord) (l := l))
  set w := l.takeWhile inWord
  have hskip : (s.push (some s.p)).skip inWord =
      ⟨s.pre ++ c :: w, l.dropWhile inWord, s.argv ++ [some s.p], s.cuts⟩ := by
    simp [Split.skip, Split.push, hrest, hc, w]
  rw [hskip]
  cases hd : l.dropWhile inWord with
  | nil =>
    -- The NUL that ends the line ends the word as well.
    show ∃ ptrs, Fills _ s (splitLoop free (if (0 : UInt8) = 0 then _ else _)) ptrs
    rw [if_pos rfl, splitLoop_nil rfl]
    rw [hd] at hwords
    refine ⟨[s.p], ⟨c :: w ++ [0], by simp [Split.buf]⟩, rfl, ?_, fun p hp => .inl hp⟩
    rw [hrest, hwords]
    exact .cons ⟨[], by simp [Split.buf, Split.p]⟩ (by simp [words])
  | cons d t =>
    have hdt : 0 ∉ d :: t := fun h0 => hnul ((dropWhile_eq_cons hd).2 h0)
    show ∃ ptrs, Fills _ s (splitLoop free (if d = 0 then _ else _)) ptrs
    rw [if_neg fun h0 : d = 0 => hdt (h0 ▸ mem_cons_self)]
    obtain ⟨ptrs, ⟨post, hpost⟩, hargv, hword, hcuts⟩ := ih
      ⟨s.pre ++ c :: w ++ [0], t, s.argv ++ [some s.p], s.cuts ++ [(s.pre ++ c :: w).length]⟩
      fun h0 => hdt (mem_cons_of_mem d h0)
    rw [hd] at hwords hlen
    refine ⟨s.p :: ptrs, ⟨c :: w ++ 0 :: post, ?_⟩, ?_, ?_, fun p hp => ?_⟩
    · simpa [Split.p] using hpost
    · simpa [Split.p] using hargv
    · rw [hrest, hwords]
      exact .cons ⟨post, by simp_all [Split.p]⟩ hword
    · have hp := hcuts p hp
      simp only [hrest, length_append, length_cons, length_nil, mem_append,
        mem_singleton] at hlen hp ⊢
      rcases hp with (hp | hp) | hp
      · exact .inl hp
      all_goals exact .inr (by omega)

theorem splitLoop_fills (free : Nat) (s : Split) (hnul : 0 ∉ s.rest) :
    ∃ ptrs, Fills free s (splitLoop free s) ptrs := by
  induction free generalizing s with
  | zero => exact ⟨[], .none rfl⟩
  | succ free ih =>
    rw [splitLoop]
    split
    · next hend => exact ⟨[], .none (by simp [(char_eq_zero hnul).mp hend, words])⟩
    have hnul' : 0 ∉ (s.skip isSpace).rest := fun h0 => hnul ((dropWhile_suffix _).subset h0)
    dsimp only
    split
    · next hend => exact ⟨[], .of_skip (.none (by simp [(char_eq_zero hnul').mp hend, words]))⟩
    · next hchar =>
      cases hrest : (s.skip isSpace).rest with
      | nil => exact absurd ((char_eq_zero hnul').mpr hrest) hchar
      | cons c l =>
        rw [hrest] at hnul'
        have hc : inWord c := inWord_iff.mpr
          ⟨fun h0 => hnul' (h0 ▸ mem_cons_self), (dropWhile_eq_cons hrest).1⟩
        obtain ⟨ptrs, h⟩ := Fills.cons hrest (fun h0 => hnul' (mem_cons_of_mem c h0)) hc ih
        exact ⟨ptrs, h.of_skip⟩

/-- Every word is in its slot, but the closing `NULL` of a line of `PROG_MAX_ARGS` words or more is
stored behind the array. -/
theorem shellExec_words (line : List UInt8) (hnul : 0 ∉ line) (hwords : words line ≠ []) :
    let r := shellExec line
    ∃ ptrs : List Nat, r.argv = ptrs.map some ++ [none] ∧
      ptrs.length = min (words line).length progMaxArgs ∧
      Forall₂ (WordAt r.buf) ptrs ((words line).take progMaxArgs) ∧
      (∀ p ∈ r.cuts, p < line.length) ∧
      (r.argv.length ≤ progMaxArgs ↔ (words line).length < progMaxArgs) := by
  obtain ⟨ptrs, -, hargv, hword, hcuts⟩ := splitLoop_fills progMaxArgs ⟨[], line, [], []⟩ hnul
  have hlen : ptrs.length = min (words line).length progMaxArgs := by
    rw [hword.length_eq, length_take, Nat.min_comm]
  have hpos := length_pos_of_ne_nil hwords
  have hne : ptrs ≠ [] := by
    rintro rfl
    simp [progMaxArgs] at hlen
    omega
  have hr : shellExec line = (splitLoop progMaxArgs ⟨[], line, [], []⟩).push none := by
    simp [shellExec, hargv, hne]
  refine ⟨ptrs, ?_, hlen, ?_, ?_, ?_⟩
  · rw [hr, Split.push, hargv, nil_append]
  · rw [hr]
    exact hword
  · rw [hr]
    simpa [Split.push] using hcuts
  · rw [hr, Split.push, hargv]
    simp
    omega

theorem shellExec_words_ls :
    let line : List UInt8 := [32, 108, 115, 32, 32, 45, 108]
    words line = [[108, 115], [45, 108]] ∧ (shellExec line).argv.length ≤ progMaxArgs := by
  obtain ⟨-, -, -, -, -, h⟩ :=
    shellExec_words [32, 108, 115, 32, 32, 45, 108] (by decide) (by decide +kernel)
  exact ⟨by decide +kernel, h.mpr (by decide +kernel)⟩

/-- Sixteen one-letter words. -/
theorem shellExec_sixteen_words :
    let line := (replicate 16 [97, 32]).flatten
    (words line).length = 16 ∧ (shellExec line).argv.length = progMaxArgs + 1 := by
  decide +kernel

end Crius.Shell
