import Crius.Lib.CycleRing

/-!
# Transfer request blocks

The memory that the xHCI driver and the controller share. The driver sees a ring as a page
of 32-bit words, the controller as 256 blocks of four words. The last word of a block holds
its type and its cycle bit; a Link block holds the address at which the ring goes on.

`controller` is the fetching side as the xHCI rules have it: a dequeue position and a cycle
state, a stop at a block with the other cycle bit, and Link blocks that are followed and
complement the state when their toggle bit is set.
-/
namespace Crius.Usb

open Lib.CycleRing BitVec

abbrev Word := BitVec 32

/-- The physical address of a page. -/
structure PhysPage where
  addr : BitVec 64
  aligned : addr &&& 0xFFF#64 = 0#64

/-- The page at address `0x1000`. -/
def lowPage : PhysPage := ⟨0x1000#64, by decide⟩

structure Trb where
  dw0 : Word
  dw1 : Word
  dw2 : Word
  dw3 : Word
  deriving DecidableEq, Repr

namespace Trb

def cycle (t : Trb) : Bool := t.dw3.getLsbD 0

/-- The toggle bit of a Link block. -/
def toggle (t : Trb) : Bool := t.dw3.getLsbD 1

def type (t : Trb) : Word := (t.dw3 >>> 10) &&& 0x3F#32

/-- The address in the first two words. -/
def pointer (t : Trb) : BitVec 64 := (t.dw1.setWidth 64 <<< 32) ||| t.dw0.setWidth 64

/-- The block without its cycle bit. -/
def content (t : Trb) : Trb := { t with dw3 := t.dw3 &&& ~~~1#32 }

/-- `ring[…] ^= 1u` on the last word. -/
def flip (t : Trb) : Trb := { t with dw3 := t.dw3 ^^^ 1#32 }

@[simp] theorem cycle_flip (t : Trb) : t.flip.cycle = !t.cycle := by
  simp [flip, cycle]

@[simp] theorem toggle_flip (t : Trb) : t.flip.toggle = t.toggle := by
  simp [flip, toggle]

@[simp] theorem type_flip (t : Trb) : t.flip.type = t.type := by
  unfold type flip
  apply eq_of_getLsbD_eq
  intro i hi
  have hone : (1#32).getLsbD (10 + i) = false := by
    rw [getLsbD_one]
    simp
  simp [hone]

@[simp] theorem pointer_flip (t : Trb) : t.flip.pointer = t.pointer := rfl

end Trb

/-- The type number of a Link block. -/
def linkType : Word := 6#32

/-- The block of a ring at which a pointer of the controller points. -/
def ringIndex (base ptr : BitVec 64) : Nat := ((ptr &&& ~~~0xF#64) - base).toNat / 16

/-- What the controller reads off a block of the ring at `base`. -/
def controller (base : BitVec 64) : Shape Trb where
  cycle := Trb.cycle
  link t := if t.type = linkType then some (ringIndex base t.pointer, t.toggle) else none

/-- The dequeue position and cycle state that a pointer register or an endpoint context
loads: the state is bit 0. -/
def loadCursor (base ptr : BitVec 64) : Cursor := ⟨ringIndex base ptr, ptr.getLsbD 0⟩

theorem PhysPage.low_bit (p : PhysPage) {i : Nat} (hi : i < 12) : p.addr.getLsbD i = false := by
  have h := congrArg (fun b => b.getLsbD i) p.aligned
  have hones : ∀ j < 12, (0xFFF#64).getLsbD j = true := by decide
  simpa [hones i hi] using h

/-- Only the low four bits of a pointer differ from the address of the ring. -/
theorem ringIndex_base (p : PhysPage) {ptr : BitVec 64}
    (h : ∀ i, 4 ≤ i → ptr.getLsbD i = p.addr.getLsbD i) : ringIndex p.addr ptr = 0 := by
  have hmask : ptr &&& ~~~0xF#64 = p.addr := by
    apply BitVec.eq_of_getLsbD_eq
    intro i hi
    by_cases hlow : i < 4
    · have hzeros : ∀ j < 4, (~~~0xF#64).getLsbD j = false := by decide
      rw [BitVec.getLsbD_and, hzeros i hlow, p.low_bit (by omega), Bool.and_false]
    · have hones : ∀ j < 64, 4 ≤ j → (~~~0xF#64).getLsbD j = true := by decide
      rw [BitVec.getLsbD_and, hones i hi (by omega), Bool.and_true, h i (by omega)]
  unfold ringIndex
  rw [hmask, BitVec.sub_self]
  rfl

theorem loadCursor_base (p : PhysPage) : loadCursor p.addr (p.addr ||| 1#64) = ⟨0, true⟩ := by
  have hindex : ringIndex p.addr (p.addr ||| 1#64) = 0 := by
    apply ringIndex_base
    intro i hi
    have hone : (1#64).getLsbD i = false := by
      rw [getLsbD_one]
      simp
      omega
    rw [getLsbD_or, hone, Bool.or_false]
  unfold loadCursor
  rw [hindex]
  simp

/-! ## Pages -/

/-- A ring as the driver's array of words. -/
abbrev Page := Nat → Word

namespace Page

def set (p : Page) (i : Nat) (w : Word) : Page := Function.update p i w

/-- The four stores that write a block at word `off`. -/
def write (p : Page) (off : Nat) (t : Trb) : Page :=
  (((p.set off t.dw0).set (off + 1) t.dw1).set (off + 2) t.dw2).set (off + 3) t.dw3

def trb (p : Page) (i : Nat) : Trb := ⟨p (4 * i), p (4 * i + 1), p (4 * i + 2), p (4 * i + 3)⟩

/-- The page after `memset`. -/
def zero : Page := fun _ => 0#32

theorem write_other (p : Page) {off x : Nat} (t : Trb) (h : x < off ∨ off + 4 ≤ x) :
    p.write off t x = p x := by
  have h0 : x ≠ off := by omega
  have h1 : x ≠ off + 1 := by omega
  have h2 : x ≠ off + 2 := by omega
  have h3 : x ≠ off + 3 := by omega
  simp only [write, set, Function.update_apply, if_neg h0, if_neg h1, if_neg h2, if_neg h3]

@[simp] theorem trb_write (p : Page) (i j : Nat) (t : Trb) :
    (p.write (4 * i) t).trb j = if j = i then t else p.trb j := by
  by_cases h : j = i
  · subst h
    simp [write, set, trb]
  · have hsame (a : Nat) (ha : a < 4) : p.write (4 * i) t (4 * j + a) = p (4 * j + a) :=
      p.write_other t (by omega)
    rw [if_neg h]
    unfold trb
    rw [hsame 1 (by decide), hsame 2 (by decide), hsame 3 (by decide)]
    congr 1
    exact hsame 0 (by decide)

/-- The store `ring[…] ^= 1u` on the last word of block `n`. -/
def flipLink (p : Page) (n : Nat) : Page := p.set (4 * n + 3) (p (4 * n + 3) ^^^ 1#32)

@[simp] theorem trb_flipLink (p : Page) (n j : Nat) :
    (p.flipLink n).trb j = if j = n then (p.trb n).flip else p.trb j := by
  by_cases h : j = n
  · subst h
    simp [flipLink, set, trb, Trb.flip]
  · have hsame (a : Nat) (ha : a < 4) : p.flipLink n (4 * j + a) = p (4 * j + a) :=
      Function.update_of_ne (by omega) _ _
    rw [if_neg h]
    unfold trb
    rw [hsame 1 (by decide), hsame 2 (by decide), hsame 3 (by decide)]
    congr 1
    exact hsame 0 (by decide)

end Page

/-- The Link block back to the start of the ring, with the toggle bit set and cycle bit 0. -/
def linkTrb (base : BitVec 64) : Trb :=
  ⟨base.setWidth 32, (base >>> 32).setWidth 32, 0#32, (6#32 <<< 10) ||| (1#32 <<< 1) ||| 0#32⟩

theorem pointer_linkTrb (base : BitVec 64) : (linkTrb base).pointer = base := by
  unfold Trb.pointer linkTrb
  apply eq_of_getLsbD_eq
  intro i hi
  by_cases h : i < 32
  · simp [h, hi]
  · have hlow : i - 32 < 32 := by omega
    have hadd : 32 + (i - 32) = i := by omega
    simp [h, hi, hlow, hadd]

theorem link_linkTrb (p : PhysPage) : (controller p.addr).link (linkTrb p.addr) = some (0, true) := by
  have htype : (linkTrb p.addr).type = linkType := by
    change (((6#32 <<< 10) ||| (1#32 <<< 1) ||| 0#32) >>> 10) &&& 0x3F#32 = 6#32
    decide
  have htoggle : (linkTrb p.addr).toggle = true := by
    change ((6#32 <<< 10) ||| (1#32 <<< 1) ||| 0#32).getLsbD 1 = true
    decide
  have hindex : ringIndex p.addr (linkTrb p.addr).pointer = 0 := by
    rw [pointer_linkTrb]
    exact ringIndex_base p fun _ _ => rfl
  simp only [controller, htype, htoggle, hindex, if_true]

theorem link_flip (base : BitVec 64) (t : Trb) :
    (controller base).link t.flip = (controller base).link t := by
  simp only [controller, Trb.type_flip, Trb.pointer_flip, Trb.toggle_flip]

/-- The controller fetches when a doorbell rings, up to the first block with the other cycle
bit. There is no result if it has not come to a stop within two rounds of the ring. -/
def doorbell (base : BitVec 64) (p : Page) (hc : Cursor) : Option (List (Nat × Trb) × Cursor) :=
  drain (controller base) p.trb 512 hc

theorem doorbell_of_drain {base : BitVec 64} {p : Page} {hc : Cursor} {fuel : Nat}
    {r : List (Nat × Trb) × Cursor} (h : drain (controller base) p.trb fuel hc = some r)
    (hfuel : fuel ≤ 512) : doorbell base p hc = some r := by
  have hmore := drain_mono h (512 - fuel)
  rw [Nat.add_sub_cancel' hfuel] at hmore
  exact hmore

/-! ## Driver steps as steps of a ring -/

/-- The driver's view of a ring as a producer: blocks, enqueue position and cycle state. -/
def producer (p : Page) (enq : Nat) (state : Bool) : Lib.CycleRing.Ring Trb := ⟨p.trb, enq, state⟩

theorem wraps_flipLink (base : BitVec 64) (p : Page) (n enq : Nat) (state : Bool) :
    Wraps (controller base) n (producer p enq state) (producer (p.flipLink n) 0 (!state)) where
  cycle := by simp [producer, controller]
  link := by simp [producer, link_flip]
  other i hi := by simp [producer, Nat.ne_of_lt hi]
  enq := rfl
  state := rfl

/-- Blocks written one after the other. -/
def writeAll (p : Page) (i : Nat) : List Trb → Page
  | [] => p
  | t :: ts => writeAll (p.write (4 * i) t) (i + 1) ts

theorem writeAll_other (p : Page) (i : Nat) (ts : List Trb) {j : Nat}
    (h : j < i ∨ i + ts.length ≤ j) : (writeAll p i ts).trb j = p.trb j := by
  induction ts generalizing p i with
  | nil => rfl
  | cons t ts ih =>
    rw [List.length_cons] at h
    have hj : j ≠ i := by omega
    rw [writeAll, ih (p.write (4 * i) t) (i + 1) (by omega), Page.trb_write, if_neg hj]

theorem stands_writeAll (p : Page) (i : Nat) (ts : List Trb) : Stands (writeAll p i ts).trb i ts := by
  induction ts generalizing p i with
  | nil => trivial
  | cons t ts ih =>
    refine ⟨?_, ih (p.write (4 * i) t) (i + 1)⟩
    rw [writeAll, writeAll_other _ _ _ (Or.inl (Nat.lt_succ_self i)), Page.trb_write, if_pos rfl]

theorem puts_writeAll (p : Page) (n enq : Nat) (state : Bool) (ts : List Trb) :
    Puts n (producer p enq state) ts (producer (writeAll p enq ts) (enq + ts.length) state) where
  stands := stands_writeAll p enq ts
  other _ _ h := writeAll_other p enq ts h
  enq := rfl
  state := rfl

/-- A zeroed page with its Link block, a producer at the start with cycle state 1, and a
controller that has loaded the address of the page with bit 0 set. -/
theorem inStep_fresh (base : PhysPage) (n : Nat) :
    InStep (controller base.addr) n
      (producer (Page.zero.write (4 * n) (linkTrb base.addr)) 0 true)
      (loadCursor base.addr (base.addr ||| 1#64)) where
  link := by
    simp only [producer, Page.trb_write, if_true]
    exact link_linkTrb base
  le := Nat.zero_le n
  cursor := loadCursor_base base
  ahead i _ _ := by
    simp only [producer, Page.trb_write, controller]
    split_ifs with h
    · change ((6#32 <<< 10) ||| (1#32 <<< 1) ||| 0#32).getLsbD 0 ≠ true
      decide
    · change (0#32).getLsbD 0 ≠ true
      decide
  behind i hi := absurd hi (Nat.not_lt_zero i)

end Crius.Usb
