import Mathlib.Tactic

/-!
# The history of the shell

`history_push`, `history_show` and the keys Up, Down and Enter of nexus/shell/shell.c. What the
other keys do to the line is a step to any line.
-/
namespace Crius.Shell

open Function List

/-- `MAX_CMD_LEN` and `HISTORY_SIZE` -/
def maxCmdLen : Nat := 256
def historySize : Nat := 32

/-- A string in a buffer of `MAX_CMD_LEN` bytes. The loops that copy it copy all of it. -/
structure Line where
  bytes : List UInt8
  nonzero : 0 ∉ bytes
  fits : bytes.length < maxCmdLen
  deriving DecidableEq

def Line.empty : Line := ⟨[], not_mem_nil, Nat.zero_lt_succ 255⟩

/-- Only spaces, or nothing. -/
def Line.blank (line : Line) : Bool := line.bytes.all (· == 32)

/-- `cmd_buf`, `history`, `history_count` and so on. -/
structure State where
  cmd : Line
  history : Nat → Line
  count : Nat
  pos : Nat
  active : Bool
  saved : Line

inductive Key where
  | edit (line : Line)
  | up
  | down
  | enter

namespace State

def start : State := ⟨.empty, fun _ => .empty, 0, 0, false, .empty⟩

def historyPush (s : State) (line : Line) : State :=
  if line.blank then s
  else if 0 < s.count ∧ s.history ((s.count - 1) % historySize) = line then s
  else { s with history := update s.history (s.count % historySize) line, count := s.count + 1 }

def historyShow (s : State) (idx : Nat) : State :=
  { s with cmd := if idx < s.count then s.history (idx % historySize) else .empty }

def up (s : State) : State :=
  if s.count = 0 then s
  else
    let s := if s.active then s else { s with saved := s.cmd, active := true }
    let s := { s with pos := s.pos - 1 }
    if s.pos < s.count then s.historyShow s.pos else s

def down (s : State) : State :=
  if s.count = 0 then s
  else
    let s := { s with pos := s.pos + 1 }
    if s.count ≤ s.pos then { s with cmd := s.saved, pos := s.count, active := false }
    else s.historyShow s.pos

def enter (s : State) : State :=
  let s := s.historyPush s.cmd
  { s with cmd := .empty, pos := s.count, active := false }

def press (s : State) : Key → State
  | .edit line => { s with cmd := line }
  | .up => s.up
  | .down => s.down
  | .enter => s.enter

end State

/-- A line counts if it is not blank and not the same as the one before. -/
def accept (lines : List Line) (line : Line) : List Line :=
  if line.blank ∨ lines.getLast? = some line then lines else lines ++ [line]

/-- A key, with the lines that were accepted so far. -/
def step (p : State × List Line) (key : Key) : State × List Line :=
  (p.1.press key, match key with | .enter => accept p.2 p.1.cmd | _ => p.2)

def session (keys : List Key) : State × List Line := keys.foldl step (.start, [])

/-- The ring has the last lines. -/
structure Records (s : State) (lines : List Line) : Prop where
  count : s.count = lines.length
  slot : ∀ i line, lines[i]? = some line → lines.length ≤ i + historySize →
    s.history (i % historySize) = line

variable {s : State} {lines : List Line}

theorem Records.congr {s' : State} (h : Records s lines) (hhistory : s'.history = s.history)
    (hcount : s'.count = s.count) : Records s' lines :=
  ⟨hcount.trans h.count, hhistory ▸ h.slot⟩

theorem Records.push (h : Records s lines) (line : Line) :
    Records (s.historyPush line) (accept lines line) := by
  have hlast : lines.getLast? = some line ↔
      0 < s.count ∧ s.history ((s.count - 1) % historySize) = line := by
    rw [getLast?_eq_getElem?, h.count]
    cases hl : lines[lines.length - 1]? with
    | none =>
      rw [getElem?_eq_none_iff] at hl
      simp
      omega
    | some last =>
      obtain ⟨hlt, -⟩ := List.getElem?_eq_some_iff.mp hl
      rw [h.slot _ last hl (by rw [historySize]; omega)]
      simp
      omega
  unfold State.historyPush accept
  by_cases hblank : line.blank = true
  · simp [hblank, h]
  by_cases hsame : lines.getLast? = some line
  · rw [if_neg hblank, if_pos (hlast.mp hsame), if_pos (.inr hsame)]
    exact h
  rw [if_neg hblank, if_neg (mt hlast.mpr hsame), if_neg (by simp [hblank, hsame])]
  refine ⟨by simp [h.count], fun i l hl hi => ?_⟩
  rw [length_append, length_singleton] at hi
  dsimp only
  rw [h.count]
  rcases Nat.lt_or_ge i lines.length with hlt | hge
  · -- The new line takes the slot of one that is too old.
    rw [getElem?_append_left hlt] at hl
    rw [update_of_ne (by rw [historySize] at *; omega)]
    exact h.slot i l hl (by omega)
  · rw [getElem?_append_right hge] at hl
    obtain ⟨hlt, rfl⟩ := List.getElem?_eq_some_iff.mp hl
    rw [length_singleton] at hlt
    obtain rfl : i = lines.length := by omega
    simp

theorem Records.press (h : Records s lines) (key : Key) :
    Records (step (s, lines) key).1 (step (s, lines) key).2 := by
  cases key with
  | edit line => exact h.congr rfl rfl
  | up =>
    dsimp only [step, State.press, State.up, State.historyShow]
    split_ifs <;> exact h.congr rfl rfl
  | down =>
    dsimp only [step, State.press, State.down, State.historyShow]
    split_ifs <;> exact h.congr rfl rfl
  | enter => exact (h.push s.cmd).congr rfl rfl

theorem records_session (keys : List Key) : Records (session keys).1 (session keys).2 := by
  have hrun (p : State × List Line) (h : Records p.1 p.2) :
      Records (keys.foldl step p).1 (keys.foldl step p).2 := by
    induction keys generalizing p with
    | nil => exact h
    | cons key keys ih => exact ih _ (h.press key)
  exact hrun _ ⟨rfl, by simp⟩

/-- Nothing has been recalled at this prompt. -/
structure Prompt (s : State) (lines : List Line) : Prop where
  records : Records s lines
  pos : s.pos = s.count
  active : s.active = false

theorem prompt_session (entries : List (List Key)) :
    Prompt (session (entries.flatMap (· ++ [.enter]))).1
      (session (entries.flatMap (· ++ [.enter]))).2 := by
  rcases eq_nil_or_concat entries with rfl | ⟨before, last, rfl⟩
  · exact ⟨records_session [], rfl, rfl⟩
  · have h := records_session (before.flatMap (· ++ [.enter]) ++ last)
    rw [concat_eq_append, flatMap_append, flatMap_singleton, ← append_assoc, session, foldl_append]
    exact ⟨(h.push _).congr rfl rfl, rfl, rfl⟩

/-- `Up` goes back to the first line and stays there. -/
theorem Prompt.up (h : Prompt s lines) (hpos : 0 < s.count) (k : Nat) :
    State.up^[k + 1] s = { s with
      cmd := s.history ((s.count - (k + 1)) % historySize)
      pos := s.count - (k + 1)
      active := true
      saved := s.cmd } := by
  have hlt (i : Nat) : s.count - (i + 1) < s.count := by omega
  induction k with
  | zero => simp [State.up, State.historyShow, h.pos, h.active, Nat.ne_of_gt hpos, hlt 0]
  | succ k ih =>
    rw [iterate_succ_apply', ih]
    simp [State.up, State.historyShow, Nat.ne_of_gt hpos, hlt (k + 1), Nat.sub_sub]

/-- `Down` shows the saved line behind the last one. -/
theorem down_iterate (m : Nat) (hpos : 0 < s.count) (hm : s.count ≤ s.pos + (m + 1)) :
    (State.down^[m + 1] s).cmd = s.saved := by
  induction m generalizing s with
  | zero => simp [State.down, Nat.ne_of_gt hpos, hm]
  | succ m ih =>
    rw [iterate_succ_apply]
    by_cases hend : s.count ≤ s.pos + 1
    · have hdown : s.down = { s with cmd := s.saved, pos := s.count, active := false } := by
        simp [State.down, Nat.ne_of_gt hpos, hend]
      rw [hdown]
      exact ih hpos (Nat.le_add_right ..)
    · have hdown : s.down = { s with pos := s.pos + 1 }.historyShow (s.pos + 1) := by
        simp [State.down, Nat.ne_of_gt hpos, hend]
      rw [hdown]
      exact ih hpos (by simp [State.historyShow]; omega)

/-- Of the first `n` lines, the last one that has the ring slot of line `i`. -/
def newest (n i : Nat) : Nat := i + historySize * ((n - 1 - i) / historySize)

theorem newest_eq {n i : Nat} (h : n ≤ i + historySize) : newest n i = i := by
  rw [newest, Nat.div_eq_of_lt (by rw [historySize] at *; omega), Nat.mul_zero, Nat.add_zero]

/-- The slot of line `i` has the newest line that was put there. -/
theorem Records.newest (h : Records s lines) {i : Nat} (hi : i < lines.length) :
    lines[Shell.newest lines.length i]? = some (s.history (i % historySize)) := by
  have hdiv := Nat.div_add_mod (lines.length - 1 - i) historySize
  have hrem := Nat.mod_lt (lines.length - 1 - i) (show 0 < historySize by decide)
  have hlt : Shell.newest lines.length i < lines.length := by
    rw [Shell.newest]
    omega
  rw [getElem?_eq_getElem hlt, ← h.slot _ _ (getElem?_eq_getElem hlt) (by rw [Shell.newest]; omega),
    Shell.newest, Nat.add_mul_mod_self_left]

/-- At a prompt after any number of entered lines, with any text typed: `Up` recalls the last
`HISTORY_SIZE` lines, and stays at the first one if there are no more than these; of more lines
it shows the newest in each slot over and over. `Up` and as many `Down` give the text back. `Down`
alone shows what was saved at another prompt. -/
theorem history_recall (entries : List (List Key)) (text : Line) :
    let p := session (entries.flatMap (· ++ [.enter]) ++ [.edit text])
    (∀ k, p.2 ≠ [] → k + 1 ≤ historySize ∨ p.2.length ≤ historySize →
      p.2[p.2.length - (k + 1)]? = some (State.up^[k + 1] p.1).cmd) ∧
    (∀ k, p.2 ≠ [] → p.2[newest p.2.length (p.2.length - (k + 1))]? =
      some (State.up^[k + 1] p.1).cmd) ∧
    (∀ j m, j ≤ m → (State.down^[m + 1] (State.up^[j + 1] p.1)).cmd = text) ∧
    ∀ m, (State.down^[m + 1] p.1).cmd = if p.2 = [] then text else p.1.saved := by
  intro p
  have hp : p = step (session (entries.flatMap (· ++ [.enter]))) (.edit text) := foldl_append ..
  have hprompt := prompt_session entries
  have h : Prompt p.1 p.2 := by
    rw [hp]
    exact ⟨hprompt.records.congr rfl rfl, hprompt.pos, hprompt.active⟩
  have hcmd : p.1.cmd = text := hp ▸ rfl
  clear_value p
  obtain ⟨s, lines⟩ := p
  have hcount := h.records.count
  dsimp only at *
  rcases eq_or_ne lines [] with rfl | hne
  · have hup : s.up = s := if_pos hcount
    have hdown : s.down = s := if_pos hcount
    refine ⟨fun k hk => absurd rfl hk, fun k hk => absurd rfl hk, fun j m _ => ?_, fun m => ?_⟩
    · rw [iterate_fixed hup, iterate_fixed hdown, hcmd]
    · rw [iterate_fixed hdown, hcmd, if_pos rfl]
  · have hpos : 0 < s.count := by rw [hcount, length_pos_iff]; exact hne
    have hshown (k : Nat) : lines[newest lines.length (lines.length - (k + 1))]? =
        some (State.up^[k + 1] s).cmd := by
      rw [h.up hpos k, hcount]
      exact h.records.newest (by omega)
    refine ⟨fun k _ hk => ?_, fun k _ => hshown k, fun j m hm => ?_, fun m => ?_⟩
    · rw [← hshown k, newest_eq (by omega)]
    · rw [h.up hpos j, ← hcmd]
      apply down_iterate m
      · exact hpos
      · show s.count ≤ s.count - (j + 1) + (m + 1)
        omega
    · rw [down_iterate m hpos (by rw [h.pos]; omega), if_neg hne]

theorem letter_nonzero : ∀ i : Fin 33, (0 : UInt8) ∉ [65 + i.val.toUInt8] := by decide

/-- One of 33 lines of one byte. -/
def letter (i : Fin 33) : Line := ⟨[65 + i.val.toUInt8], letter_nonzero i, Nat.lt_of_sub_eq_succ rfl⟩

/-- After 33 lines the 33rd `Up` shows the last line once more; and `Down` at a prompt with a line
typed shows what was saved before, at first nothing. -/
theorem history_forgets :
    (let p := session ((finRange 33).flatMap fun i => [.edit (letter i), .enter])
     p.2.length = 33 ∧ (State.up^[32] p.1).cmd = letter 1 ∧ (State.up^[33] p.1).cmd = letter 32) ∧
    let p := session [.edit (letter 0), .enter, .edit (letter 1)]
    p.1.down.cmd = .empty := by
  decide +kernel

end Crius.Shell
