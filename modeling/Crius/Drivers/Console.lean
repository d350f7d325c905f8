import Crius.Drivers.Framebuffer
import Crius.Lib.Run

/-!
# The console

`fb_putc` and what it calls, in `drivers/fb/fb_ansi.c` and `drivers/fb/fb_draw.c`: the
parser of escape sequences and the cursor. `fb_dev_write` sends each byte through it.

The cursor is not kept on the screen: a tab on the last row, the cursor sequences and the
restored cursor can leave it anywhere, and a glyph or an erase then follows it. The bytes
for which that happens are described by the state before the byte.
-/
namespace Crius.Fb

open Lib.Run List

/-- `ANSI_MAX_PARAMS` -/
def ansiMaxParams : Nat := 8

/-- `ansi_state` 0, 1 and 2 -/
inductive AnsiState where
  | normal
  | esc
  | csi
  deriving DecidableEq, Repr

/-- The variables of the console. `params` is the part of `ansi_params[]` below
`ansi_nparams`; the rest of the array is zero. -/
structure Console where
  x : Int
  y : Int
  savedX : Int
  savedY : Int
  state : AnsiState
  params : List Int
  curParam : Int
  deriving DecidableEq, Repr

/-- The console after `fb_init`. -/
def Console.init : Console := ⟨0, 0, 0, 0, .normal, [], 0⟩

namespace Console

variable (g : Geometry) (s : Console)

/-- `ansi_reset` -/
def reset : Console := { s with state := .normal, params := [], curParam := 0 }

/-- A negative coordinate becomes 0. -/
def clamp (n : Int) : Int := if n < 0 then 0 else n

/-- `fb_scroll` and the cursor on the last row, if the cursor has left the screen. -/
def scrollIfBelow : Console × List Access :=
  if g.h < i32 (s.y + 8) then
    ({ s with y := i32 (g.h - 8), savedY := clamp (i32 (s.savedY - 8)) }, fbScroll g)
  else (s, [])

/-- The start of the next row, if there is no room for a glyph in this one. -/
def wrapRow : Console :=
  if g.w < i32 (s.x + 8) then { s with x := 0, y := i32 (s.y + 8) } else s

/-- `fb_putc_raw` -/
def putcRaw (c : UInt8) : Console × List Access :=
  if c = 10 then scrollIfBelow g { s with x := 0, y := i32 (s.y + 8) }
  else if c = 8 then (if 8 ≤ s.x then { s with x := i32 (s.x - 8) } else s, [])
  else if c = 13 then ({ s with x := 0 }, [])
  else if c = 9 then (wrapRow g { s with x := i32 (s.x + 32) / 32 * 32 }, [])
  else
    let (s', scrolled) := scrollIfBelow g (wrapRow g { s with x := i32 (s.x + 8) })
    (s', fbDrawChar s.x s.y ++ scrolled)

/-- `ansi_params[i]`, or 0 without such a parameter -/
def param (i : Nat) : Int := s.params.getD i 0

/-- The row or column of a cursor position, which counts from 1. -/
def position (p : Int) : Int := clamp (i32 ((if 0 < p then p - 1 else 0) * 8))

/-- `CSI J` with parameter 0: the rest of the cursor's rows and all rows below. -/
def eraseBelow : List Access :=
  erase s.y (min (i32 (s.y + 8)) g.h) (fun y => if y = s.y then s.x else 0) g.w ++
    erase (i32 (s.y + 8)) g.h (fun _ => 0) g.w

/-- The columns of `CSI K`. -/
def lineColumns : Int × Int :=
  if s.param 0 = 1 then (0, s.x) else if s.param 0 = 2 then (0, g.w) else (s.x, g.w)

/-- `CSI K` -/
def eraseLine : List Access :=
  erase s.y (min (i32 (s.y + 8)) g.h) (fun _ => (lineColumns g s).1) (lineColumns g s).2

/-- `ansi_csi_dispatch`; the colours of `m` are not modelled. -/
def csiDispatch (cmd : UInt8) : Console × List Access :=
  let p0 := s.param 0
  let p1 := s.param 1
  if cmd = 72 ∨ cmd = 102 then ({ s with y := position p0, x := position p1 }, [])
  else if cmd = 65 then ({ s with y := clamp (i32 (s.y - i32 (p0 * 8))) }, [])
  else if cmd = 66 then ({ s with y := i32 (s.y + i32 (p0 * 8)) }, [])
  else if cmd = 67 then ({ s with x := i32 (s.x + i32 (p0 * 8)) }, [])
  else if cmd = 68 then ({ s with x := clamp (i32 (s.x - i32 (p0 * 8))) }, [])
  else if cmd = 74 then
    if p0 = 0 then (s, eraseBelow g s)
    else if p0 = 2 ∨ p0 = 3 then ({ s with x := 0, y := 0 }, fbClear g)
    else (s, [])
  else if cmd = 75 then (s, eraseLine g s)
  else (s, [])

/-- The parameter that was being read is complete. -/
def pushParam : Console :=
  if s.params.length < ansiMaxParams then { s with params := s.params ++ [s.curParam] } else s

/-- `fb_putc` -/
def putc (c : UInt8) : Console × List Access :=
  match s.state with
  | .normal => if c = 27 then ({ s with state := .esc }, []) else putcRaw g s c
  | .esc =>
    if c = 91 then ({ s with state := .csi, params := [], curParam := 0 }, [])
    else if c = 55 then (reset { s with savedX := s.x, savedY := s.y }, [])
    else if c = 56 then (reset { s with x := s.savedX, y := s.savedY }, [])
    else (reset s, [])
  | .csi =>
    if 48 ≤ c ∧ c ≤ 57 then
      ({ s with curParam := i32 (i32 (s.curParam * 10) + (c.toNat - 48 : Nat)) }, [])
    else if c = 59 then ({ pushParam s with curParam := 0 }, [])
    else
      let (s', accesses) := csiDispatch g (pushParam s) c
      (reset s', accesses)

/-- `fb_dev_write`: the console afterwards and the pixels on the way. -/
def devWrite : List UInt8 → Console → Console × List Access
  | [], s => (s, [])
  | c :: cs, s =>
    let (s', accesses) := putc g s c
    let (s'', rest) := devWrite cs s'
    (s'', accesses ++ rest)

/-! ## The bytes that stay on the screen -/

/-- The scroll of a cursor that has left the screen needs a screen of `int` size. -/
def ScrollFits : Prop := g.h < i32 (s.y + 8) → g.IntSized

/-- A byte of plain text: a glyph needs the cursor on the screen. -/
def RawFits (c : UInt8) : Prop :=
  if c = 10 then ScrollFits g { s with x := 0, y := i32 (s.y + 8) }
  else if c = 8 ∨ c = 13 ∨ c = 9 then True
  else g.GlyphFits s.x s.y ∧ ScrollFits g (wrapRow g { s with x := i32 (s.x + 8) })

/-- The end of an escape sequence: an erase needs its part of the cursor's rows on the
screen. -/
def CsiFits (cmd : UInt8) : Prop :=
  if cmd = 74 then
    if s.param 0 = 0 then
      g.EraseFits s.y (min (i32 (s.y + 8)) g.h) (fun y => if y = s.y then s.x else 0) g.w ∧
        g.EraseFits (i32 (s.y + 8)) g.h (fun _ => 0) g.w
    else s.param 0 = 2 ∨ s.param 0 = 3 → g.IntSized
  else cmd = 75 →
    g.EraseFits s.y (min (i32 (s.y + 8)) g.h) (fun _ => (lineColumns g s).1) (lineColumns g s).2

def Fits (c : UInt8) : Prop :=
  match s.state with
  | .normal => c = 27 ∨ RawFits g s c
  | .esc => True
  | .csi => (48 ≤ c ∧ c ≤ 57) ∨ c = 59 ∨ CsiFits g (pushParam s) c

/-- The cursor and the saved one are `int` values. -/
structure Bounded : Prop where
  x : IsInt s.x
  y : IsInt s.y
  savedX : IsInt s.savedX
  savedY : IsInt s.savedY

section Step

variable {g : Geometry} {s : Console}

theorem isInt_clamp {n : Int} (h : IsInt n) : IsInt (clamp n) := by
  unfold clamp
  split
  · exact isInt_zero
  · exact h

theorem scrollIfBelow_onScreen (g : Geometry) (s : Console) :
    (∀ a ∈ (scrollIfBelow g s).2, g.OnScreen a) ↔ ScrollFits g s := by
  unfold scrollIfBelow ScrollFits
  split_ifs with hbelow
  · rw [fbScroll_onScreen]
    exact ⟨fun h _ => h, fun h => h hbelow⟩
  · exact ⟨fun _ h => absurd h hbelow, fun _ => forall_mem_nil _⟩

theorem putcRaw_onScreen (hb : Bounded s) (c : UInt8) :
    (∀ a ∈ (putcRaw g s c).2, g.OnScreen a) ↔ RawFits g s c := by
  have hnone : (∀ a ∈ ([] : List Access), g.OnScreen a) ↔ True := by
    rw [iff_true]
    exact forall_mem_nil _
  unfold putcRaw RawFits
  by_cases hnl : c = 10
  · rw [if_pos hnl, if_pos hnl, scrollIfBelow_onScreen]
  · rw [if_neg hnl, if_neg hnl]
    by_cases hbs : c = 8
    · rw [if_pos hbs, if_pos (Or.inl hbs), hnone]
    · rw [if_neg hbs]
      by_cases hcr : c = 13
      · rw [if_pos hcr, if_pos (Or.inr (Or.inl hcr)), hnone]
      · rw [if_neg hcr]
        by_cases htab : c = 9
        · rw [if_pos htab, if_pos (Or.inr (Or.inr htab)), hnone]
        · have hplain : ¬(c = 8 ∨ c = 13 ∨ c = 9) := by simp [hbs, hcr, htab]
          rw [if_neg htab, if_neg hplain]
          simp only [forall_mem_append]
          rw [fbDrawChar_onScreen hb.x hb.y, scrollIfBelow_onScreen]

theorem csiDispatch_onScreen (g : Geometry) (s : Console) (cmd : UInt8) :
    (∀ a ∈ (csiDispatch g s cmd).2, g.OnScreen a) ↔ CsiFits g s cmd := by
  have hnone : ∀ a ∈ ([] : List Access), g.OnScreen a := forall_mem_nil _
  unfold csiDispatch CsiFits
  by_cases hj : cmd = 74
  · subst hj
    simp +decide only [if_false, if_true]
    by_cases h0 : s.param 0 = 0
    · rw [if_pos h0, if_pos h0, eraseBelow, forall_mem_append, erase_onScreen, erase_onScreen]
    · rw [if_neg h0, if_neg h0]
      split_ifs with h23
      · rw [fbClear_onScreen]
        exact ⟨fun h _ => h, fun h => h h23⟩
      · exact ⟨fun _ h => absurd h h23, fun _ => hnone⟩
  · rw [if_neg hj]
    by_cases hk : cmd = 75
    · subst hk
      simp +decide only [if_false, if_true, eraseLine, erase_onScreen, true_implies]
    · -- every other sequence moves the cursor at most
      have hquiet : ∀ a ∈ (csiDispatch g s cmd).2, g.OnScreen a := by
        unfold csiDispatch
        simp only [if_neg hj, if_neg hk]
        split_ifs <;> exact hnone
      exact ⟨fun _ h => absurd h hk, fun _ => hquiet⟩

theorem putc_onScreen (hb : Bounded s) (c : UInt8) :
    (∀ a ∈ (putc g s c).2, g.OnScreen a) ↔ Fits g s c := by
  have hnone : ∀ a ∈ ([] : List Access), g.OnScreen a := forall_mem_nil _
  unfold putc Fits
  cases s.state with
  | normal =>
    by_cases hesc : c = 27
    · simp only [if_pos hesc]
      exact ⟨fun _ => .inl hesc, fun _ => hnone⟩
    · simp only [hesc, if_false, putcRaw_onScreen hb, false_or]
  | esc =>
    simp only [iff_true]
    split_ifs <;> exact hnone
  | csi =>
    by_cases hdigit : 48 ≤ c ∧ c ≤ 57
    · simp only [if_pos hdigit]
      exact ⟨fun _ => .inl hdigit, fun _ => hnone⟩
    · simp only [if_neg hdigit]
      by_cases hsep : c = 59
      · simp only [if_pos hsep]
        exact ⟨fun _ => .inr (.inl hsep), fun _ => hnone⟩
      · simp only [hsep, if_false, csiDispatch_onScreen, hdigit, false_or]

theorem Bounded.scrollIfBelow (hb : Bounded s) : Bounded (scrollIfBelow g s).1 := by
  have hlast : IsInt (i32 (g.h - 8)) := isInt_i32 _
  have hsaved : IsInt (clamp (i32 (s.savedY - 8))) := isInt_clamp (isInt_i32 _)
  have hscrolled : Bounded { s with y := i32 (g.h - 8), savedY := clamp (i32 (s.savedY - 8)) } :=
    ⟨hb.x, hlast, hb.savedX, hsaved⟩
  unfold Console.scrollIfBelow
  split_ifs with hbelow
  · exact hscrolled
  · exact hb

theorem Bounded.wrapRow (hb : Bounded s) : Bounded (wrapRow g s) := by
  unfold Console.wrapRow
  split
  · exact ⟨isInt_zero, isInt_i32 _, hb.savedX, hb.savedY⟩
  · exact hb

theorem isInt_tab (n : Int) : IsInt (i32 n / 32 * 32) := by
  have h := isInt_i32 n
  unfold IsInt at h ⊢
  omega

theorem Bounded.putcRaw (hb : Bounded s) (c : UInt8) : Bounded (putcRaw g s c).1 := by
  have hx {x : Int} (h : IsInt x) : Bounded { s with x := x } := ⟨h, hb.y, hb.savedX, hb.savedY⟩
  unfold Console.putcRaw
  dsimp only
  split_ifs
  · exact Bounded.scrollIfBelow ⟨isInt_zero, isInt_i32 _, hb.savedX, hb.savedY⟩
  · exact hx (isInt_i32 _)
  · exact hb
  · exact hx isInt_zero
  · exact (hx (isInt_tab _)).wrapRow
  · exact (hx (isInt_i32 _)).wrapRow.scrollIfBelow

theorem Bounded.csiDispatch (hb : Bounded s) (cmd : UInt8) : Bounded (csiDispatch g s cmd).1 := by
  have hx {x : Int} (h : IsInt x) : Bounded { s with x := x } := ⟨h, hb.y, hb.savedX, hb.savedY⟩
  have hy {y : Int} (h : IsInt y) : Bounded { s with y := y } := ⟨hb.x, h, hb.savedX, hb.savedY⟩
  have hxy {x y : Int} (h : IsInt x) (h' : IsInt y) : Bounded { s with x := x, y := y } :=
    ⟨h, h', hb.savedX, hb.savedY⟩
  have hpos (p : Int) : IsInt (position p) := isInt_clamp (isInt_i32 _)
  unfold Console.csiDispatch
  dsimp only
  split_ifs
  · exact hxy (hpos _) (hpos _)
  · exact hy (isInt_clamp (isInt_i32 _))
  · exact hy (isInt_i32 _)
  · exact hx (isInt_i32 _)
  · exact hx (isInt_clamp (isInt_i32 _))
  · exact hb
  · exact hxy isInt_zero isInt_zero
  · exact hb
  · exact hb
  · exact hb

theorem Bounded.pushParam (hb : Bounded s) : Bounded (pushParam s) := by
  unfold Console.pushParam
  split
  · exact ⟨hb.x, hb.y, hb.savedX, hb.savedY⟩
  · exact hb

/-- Every byte leaves `int` values. -/
theorem Bounded.putc (hb : Bounded s) (c : UInt8) : Bounded (putc g s c).1 := by
  unfold Console.putc
  cases s.state with
  | normal =>
    dsimp only
    split
    · exact ⟨hb.x, hb.y, hb.savedX, hb.savedY⟩
    · exact hb.putcRaw c
  | esc =>
    dsimp only
    split_ifs
    · exact ⟨hb.x, hb.y, hb.savedX, hb.savedY⟩
    · exact ⟨hb.x, hb.y, hb.x, hb.y⟩
    · exact ⟨hb.savedX, hb.savedY, hb.savedX, hb.savedY⟩
    · exact ⟨hb.x, hb.y, hb.savedX, hb.savedY⟩
  | csi =>
    have hpush := hb.pushParam
    dsimp only
    split_ifs
    · exact ⟨hb.x, hb.y, hb.savedX, hb.savedY⟩
    · exact ⟨hpush.x, hpush.y, hpush.savedX, hpush.savedY⟩
    · have hend := hpush.csiDispatch (g := g) c
      exact ⟨hend.x, hend.y, hend.savedX, hend.savedY⟩

/-- The pixels of a whole run, byte by byte. -/
theorem devWrite_onScreen (hb : Bounded s) (bytes : List UInt8) :
    (∀ a ∈ (devWrite g bytes s).2, g.OnScreen a) ↔
      Along (fun s c => some (Console.putc g s c).1) (Fits g) s bytes := by
  induction bytes generalizing s with
  | nil => exact ⟨fun _ => trivial, fun _ => forall_mem_nil _⟩
  | cons c cs ih =>
    simp only [devWrite, forall_mem_append, putc_onScreen hb, ih (hb.putc c), Along,
      Option.some.injEq, forall_eq']

/-- No escape sequence has begun, and there is room for a glyph at the cursor. -/
structure AtText (g : Geometry) (s : Console) : Prop where
  state : s.state = .normal
  column : 0 ≤ s.x ∧ s.x + 8 ≤ g.width
  row : 0 ≤ s.y ∧ s.y + 8 ≤ g.height

/-- A byte that is neither a tab nor the start of an escape sequence leaves the cursor on the
screen. -/
theorem AtText.putc (hw : g.width < 2 ^ 31 - 16) (hh : g.height < 2 ^ 31 - 16) (h : AtText g s)
    {c : UInt8} (htab : c ≠ 9) (hesc : c ≠ 27) : Fits g s c ∧ AtText g (putc g s c).1 := by
  obtain ⟨hstate, hcolumn, hrow⟩ := h
  have hwidth := g.width_ge
  have hheight := g.height_ge
  have hint {n : Int} (h₀ : 0 ≤ n ∧ n < 2 ^ 31) : i32 n = n := by
    unfold i32
    omega
  have hgw : g.w = g.width := hint (by omega)
  have hgh : g.h = g.height := hint (by omega)
  have hsized : g.IntSized := ⟨by omega, by omega⟩
  have hfirst : (0 : Int) ≤ 0 ∧ 0 + 8 ≤ (g.width : Int) := by omega
  have hscroll {x y : Int} (hx : 0 ≤ x ∧ x + 8 ≤ g.width) (hy : 0 ≤ y ∧ y ≤ g.height) :
      AtText g (scrollIfBelow g { s with x := x, y := y }).1 := by
    unfold scrollIfBelow
    rw [hgh, hint (n := y + 8) (by omega), hint (n := g.height - 8) (by omega)]
    split_ifs
    · exact ⟨hstate, hx, by dsimp only; omega⟩
    · exact ⟨hstate, hx, by dsimp only; omega⟩
  rw [Fits, Console.putc, hstate]
  dsimp only
  rw [if_neg hesc, RawFits, putcRaw, hint (n := s.x + 8) (by omega), hint (n := s.y + 8) (by omega)]
  by_cases h10 : c = 10
  · rw [if_pos h10, if_pos h10]
    exact ⟨.inr fun _ => hsized, hscroll hfirst (by omega)⟩
  rw [if_neg h10, if_neg h10]
  by_cases h8 : c = 8
  · rw [if_pos (.inl h8), if_pos h8]
    refine ⟨.inr trivial, ?_⟩
    split_ifs
    · rw [hint (n := s.x - 8) (by omega)]
      exact ⟨hstate, by dsimp only; omega, hrow⟩
    · exact ⟨hstate, hcolumn, hrow⟩
  rw [if_neg h8]
  by_cases h13 : c = 13
  · rw [if_pos (.inr (.inl h13)), if_pos h13]
    exact ⟨.inr trivial, hstate, hfirst, hrow⟩
  rw [if_neg h13, if_neg htab, if_neg (by simp [h8, h13, htab])]
  refine ⟨.inr ⟨⟨⟨hcolumn.1, hcolumn.2, by omega⟩, hrow.1, hrow.2, by omega⟩, fun _ => hsized⟩, ?_⟩
  dsimp only [wrapRow]
  rw [hint (n := s.x + 8 + 8) (by omega), hint (n := s.y + 8) (by omega), hgw]
  split_ifs
  · exact hscroll hfirst (by omega)
  · exact hscroll (by omega) (by omega)

theorem AtText.along (hw : g.width < 2 ^ 31 - 16) (hh : g.height < 2 ^ 31 - 16) (h : AtText g s)
    {bytes : List UInt8} (htext : ∀ c ∈ bytes, c ≠ 9 ∧ c ≠ 27) :
    Along (fun s c => some (Console.putc g s c).1) (Fits g) s bytes := by
  induction bytes generalizing s with
  | nil => trivial
  | cons c cs ih =>
    obtain ⟨⟨htab, hesc⟩, hrest⟩ := forall_mem_cons.mp htext
    obtain ⟨hfits, hnext⟩ := h.putc hw hh htab hesc
    refine ⟨hfits, fun s' hs' => ?_⟩
    cases hs'
    exact ih hnext hrest

end Step

/-- For every geometry and every byte sequence written to a fresh console: all pixels that
are touched are on the screen, if and only if each byte fits the state it finds. On screens that
are not too large for `int` coordinates, text without tabs and escape sequences does. -/
theorem console_output_on_screen (g : Geometry) (bytes : List UInt8) :
    ((∀ a ∈ (devWrite g bytes Console.init).2, g.OnScreen a) ↔
      Along (fun s c => some (putc g s c).1) (Fits g) Console.init bytes) ∧
    (g.width < 2 ^ 31 - 16 → g.height < 2 ^ 31 - 16 → (∀ c ∈ bytes, c ≠ 9 ∧ c ≠ 27) →
      ∀ a ∈ (devWrite g bytes Console.init).2, g.OnScreen a) := by
  have hbounded : Bounded Console.init := ⟨isInt_zero, isInt_zero, isInt_zero, isInt_zero⟩
  have hiff := devWrite_onScreen (g := g) hbounded bytes
  refine ⟨hiff, fun hw hh htext => hiff.mpr ?_⟩
  have hstart : AtText g Console.init := ⟨rfl,
    ⟨le_rfl, Int.ofNat_le.mpr g.width_ge⟩, le_rfl, Int.ofNat_le.mpr g.height_ge⟩
  exact hstart.along hw hh htext

/-- A screen of one row of five glyphs. -/
def oneRow : Geometry where
  width := 40
  height := 8
  pitch := 160
  bpp := 32
  width_ge := by decide
  width_lt := by decide
  height_ge := by decide
  height_lt := by decide
  pitch_lt := by decide
  accepted := Or.inr rfl

/-- Two tabs move the cursor below the last row, and the next glyph is drawn there. -/
theorem tab_leaves_screen :
    (devWrite oneRow [9, 9] Console.init).1.y = 8 ∧
      Access.write 0 8 ∈ (devWrite oneRow [9, 9, 65] Console.init).2 ∧
      ¬oneRow.OnScreen (.write 0 8) := by
  decide

end Console

end Crius.Fb
