import Mathlib.Tactic

/-!
# The framebuffer

Drawing in `drivers/fb/fb_draw.c` and the erase loops of `drivers/fb/fb_ansi.c`, down to
the pixels that they touch. An `int` is an integer that every operation brings back into
the range of 32 bits. Colours are left out: no branch depends on them.

`fb_draw_pixel` and `fb_get_pixel` reach the pixel of their arguments for both accepted
depths. The erase loops store 32-bit words at `y * (pitch / 4) + x`, whatever the depth.
-/
namespace Crius.Fb

open List

/-- The value of an `int` after an operation or a conversion. -/
def i32 (n : Int) : Int := (n + 2 ^ 31) % 2 ^ 32 - 2 ^ 31

def IsInt (n : Int) : Prop := -2 ^ 31 ≤ n ∧ n < 2 ^ 31

theorem isInt_i32 (n : Int) : IsInt (i32 n) := by
  unfold IsInt i32
  omega

theorem isInt_zero : IsInt 0 := by
  unfold IsInt
  omega

/-- A `struct limine_framebuffer` that `fb_init` accepts, with room for a glyph. -/
structure Geometry where
  width : Nat
  height : Nat
  pitch : Nat
  bpp : Nat
  width_ge : 8 ≤ width
  width_lt : width < 2 ^ 64
  height_ge : 8 ≤ height
  height_lt : height < 2 ^ 64
  pitch_lt : pitch < 2 ^ 64
  accepted : bpp = 24 ∨ bpp = 32

/-- A pixel that is read or drawn, or a word that an erase loop stores for a pixel. -/
inductive Access where
  | read (x y : Int)
  | write (x y : Int)
  | word (x y : Int)
  deriving DecidableEq, Repr

namespace Geometry

variable (g : Geometry)

/-- `(int)fb->width` and `(int)fb->height` -/
def w : Int := i32 g.width
def h : Int := i32 g.height

/-- The offset of the word for `(x, y)` from the first byte of row `y`. -/
def wordOffset (x y : Int) : Int := 4 * i32 (i32 (y * i32 (g.pitch / 4)) + x) - y * g.pitch

/-- The four bytes of the word are bytes of the pixels of row `y`. -/
def WordInRow (x y : Int) : Prop :=
  0 ≤ g.wordOffset x y ∧ g.wordOffset x y + 4 ≤ g.width * (g.bpp / 8)

def Inside (x y : Int) : Prop := 0 ≤ x ∧ x < g.width ∧ 0 ≤ y ∧ y < g.height

/-- The pixel, and what is stored for it, is on the screen. -/
def OnScreen : Access → Prop
  | .read x y | .write x y => g.Inside x y
  | .word x y => g.Inside x y ∧ g.WordInRow x y

instance (a : Access) : Decidable (g.OnScreen a) := by
  cases a <;> unfold OnScreen Inside
  · infer_instance
  · infer_instance
  · unfold WordInRow
    infer_instance

end Geometry

/-- `a`, ..., `b - 1` -/
def span (a b : Int) : List Int := (List.range (b - a).toNat).map fun (k : Nat) => a + k

@[simp]
theorem mem_span {a b n : Int} : n ∈ span a b ↔ a ≤ n ∧ n < b := by
  rw [span, mem_map]
  constructor
  · intro ⟨k, hk, hn⟩
    rw [mem_range] at hk
    omega
  · intro ⟨ha, hb⟩
    exact ⟨(n - a).toNat, mem_range.mpr (by omega), by omega⟩

section Draw

variable (g : Geometry)

/-- `fb_draw_char` -/
def fbDrawChar (x y : Int) : List Access :=
  (List.range 8).flatMap fun (row : Nat) =>
    (List.range 8).map fun (col : Nat) => .write (i32 (x + col)) (i32 (y + row))

/-- The pixels of the rows from `first` on, whose `size_t` coordinates become `int`. -/
def drawRows (first : Nat) : List Access :=
  (List.range (g.height - first)).flatMap fun k =>
    (List.range g.width).map fun (x : Nat) => .write (i32 x) (i32 (first + k : Nat))

/-- The copying loop of `fb_scroll` for 8 lines. -/
def copyRows : List Access :=
  (List.range (g.height - 8)).flatMap fun (y : Nat) =>
    (List.range g.width).flatMap fun (x : Nat) =>
      [.read (i32 x) (i32 (y + 8 : Nat)), .write (i32 x) (i32 y)]

/-- `fb_scroll(8, bg)`; the saved cursor is adjusted by the caller here. -/
def fbScroll : List Access := copyRows g ++ drawRows g (g.height - 8)

/-- The pixels of `fb_clear` -/
def fbClear : List Access := drawRows g 0

/-- An erase loop over the rows from `y₀` to `y₁`, from column `start y` to column `stop`. -/
def erase (y₀ y₁ : Int) (start : Int → Int) (stop : Int) : List Access :=
  (span y₀ y₁).flatMap fun y => (span (start y) stop).map fun x => .word x y

end Draw

section OnScreen

variable {g : Geometry} {x y : Int}

/-- The screen is small enough for `int` coordinates. -/
def Geometry.IntSized (g : Geometry) : Prop := g.width ≤ 2 ^ 31 ∧ g.height ≤ 2 ^ 31

/-- A glyph at `(x, y)` is on the screen. -/
def Geometry.GlyphFits (g : Geometry) (x y : Int) : Prop :=
  (0 ≤ x ∧ x + 8 ≤ g.width ∧ x + 8 ≤ 2 ^ 31) ∧ 0 ≤ y ∧ y + 8 ≤ g.height ∧ y + 8 ≤ 2 ^ 31

/-- Eight coordinates in a row, in terms of the first one. -/
theorem coords_iff {size : Nat} {n : Int} (hn : IsInt n) :
    (∀ k < 8, 0 ≤ i32 (n + (k : Nat)) ∧ i32 (n + (k : Nat)) < size) ↔
      0 ≤ n ∧ n + 8 ≤ size ∧ n + 8 ≤ 2 ^ 31 := by
  unfold IsInt at hn
  constructor
  · intro hall
    have hfirst := hall 0 (by omega)
    have hlast := hall 7 (by omega)
    unfold i32 at hfirst hlast
    omega
  · intro hfit k hk
    unfold i32
    omega

theorem fbDrawChar_onScreen (hx : IsInt x) (hy : IsInt y) :
    (∀ a ∈ fbDrawChar x y, g.OnScreen a) ↔ g.GlyphFits x y := by
  have hmem : (∀ a ∈ fbDrawChar x y, g.OnScreen a) ↔
      ∀ row < 8, ∀ col < 8, g.Inside (i32 (x + (col : Nat))) (i32 (y + (row : Nat))) := by
    simp only [fbDrawChar, forall_mem_flatMap, forall_mem_map, mem_range,
      Geometry.OnScreen]
  rw [hmem, Geometry.GlyphFits, ← coords_iff hx, ← coords_iff hy]
  constructor
  · intro hall
    exact ⟨fun k hk => ⟨(hall 0 (by omega) k hk).1, (hall 0 (by omega) k hk).2.1⟩,
      fun k hk => (hall k hk 0 (by omega)).2.2⟩
  · intro ⟨hcols, hrows⟩ row hrow col hcol
    exact ⟨(hcols col hcol).1, (hcols col hcol).2, hrows row hrow⟩

/-- All `int` coordinates below a size are below it again only if they fit an `int`. -/
theorem sizes_iff {size : Nat} :
    (∀ n < size, 0 ≤ i32 (n : Nat) ∧ i32 (n : Nat) < size) ↔ size ≤ 2 ^ 31 := by
  constructor
  · intro hall
    by_contra hbig
    have hbad := hall (2 ^ 31) (by omega)
    unfold i32 at hbad
    omega
  · intro hle n hn
    unfold i32
    omega

/-- Every pixel of the screen, by its `int` coordinates. -/
theorem pixels_iff : (∀ y < g.height, ∀ x < g.width, g.Inside (i32 (x : Nat)) (i32 (y : Nat))) ↔
    g.IntSized := by
  have hw := g.width_ge
  have hh := g.height_ge
  rw [Geometry.IntSized, ← sizes_iff, ← sizes_iff]
  constructor
  · intro hall
    exact ⟨fun n hn => ⟨(hall 0 (by omega) n hn).1, (hall 0 (by omega) n hn).2.1⟩,
      fun n hn => (hall n hn 0 (by omega)).2.2⟩
  · intro ⟨hcols, hrows⟩ y hy x hx
    exact ⟨(hcols x hx).1, (hcols x hx).2, hrows y hy⟩

theorem fbClear_onScreen : (∀ a ∈ fbClear g, g.OnScreen a) ↔ g.IntSized := by
  rw [← pixels_iff]
  simp only [fbClear, drawRows, forall_mem_flatMap, forall_mem_map, mem_range,
    Geometry.OnScreen, Nat.sub_zero, Nat.zero_add]

theorem fbScroll_onScreen : (∀ a ∈ fbScroll g, g.OnScreen a) ↔ g.IntSized := by
  rw [← pixels_iff]
  simp only [fbScroll, copyRows, drawRows, forall_mem_append, forall_mem_flatMap,
    forall_mem_map, forall_mem_cons, mem_range, Geometry.OnScreen]
  constructor
  · intro ⟨hcopy, hfill⟩ y hy x hx
    by_cases hlow : y < g.height - 8
    · exact (hcopy y hlow x hx).2.1
    · have hlast := hfill (y - (g.height - 8)) (by omega) x hx
      rw [Nat.add_sub_cancel' (by omega)] at hlast
      exact hlast
  · intro hall
    exact ⟨fun y hy x hx => ⟨hall (y + 8) (by omega) x hx, hall y (by omega) x hx,
      forall_mem_nil _⟩, fun k hk x hx => hall _ (by omega) x hx⟩

/-- The rows of an erase loop are rows of the screen, and so are the words of its columns. -/
def Geometry.EraseFits (g : Geometry) (y₀ y₁ : Int) (start : Int → Int) (stop : Int) : Prop :=
  ∀ y, y₀ ≤ y → y < y₁ → start y < stop →
    0 ≤ y ∧ y < g.height ∧ 0 ≤ start y ∧ stop ≤ g.width ∧
      ∀ x, start y ≤ x → x < stop → g.WordInRow x y

theorem erase_onScreen {y0 y1 stop : Int} {start : Int → Int} :
    (∀ a ∈ erase y0 y1 start stop, g.OnScreen a) ↔ g.EraseFits y0 y1 start stop := by
  simp only [erase, forall_mem_flatMap, forall_mem_map, mem_span, Geometry.OnScreen,
    Geometry.EraseFits, Geometry.Inside]
  constructor
  · intro hall y hlo hhi hne
    have hfirst := (hall y ⟨hlo, hhi⟩ (start y) ⟨le_rfl, hne⟩).1
    have hlast := (hall y ⟨hlo, hhi⟩ (stop - 1) ⟨by omega, by omega⟩).1
    exact ⟨hfirst.2.2.1, hfirst.2.2.2, hfirst.1, by omega,
      fun x hx hx' => (hall y ⟨hlo, hhi⟩ x ⟨hx, hx'⟩).2⟩
  · intro hfit y ⟨hlo, hhi⟩ x ⟨hx, hx'⟩
    have h := hfit y hlo hhi (lt_of_le_of_lt hx hx')
    exact ⟨⟨by omega, by omega, h.1, h.2.1⟩, h.2.2.2.2 x hx hx'⟩

end OnScreen

end Crius.Fb
