import Crius.Lib.Ring
import Crius.Lib.Run
import Mathlib.Tactic

/-!
# The keyboard buffer

`kb_buf_push`, `kb_buf_pop` and `kbd_dev_read` of `drivers/keyboard.c`. Interrupt handlers push
with interrupts off, in one step. A reader first pops with interrupts off as well; when the
buffer is empty it halts with interrupts on, and from then on it can be switched off the CPU
between any two accesses to `kb_buf_head`, `kb_buf_tail` and `kb_buf`.

Each byte carries the number of its push, so that equal bytes can be told apart. The bytes that
were stored and those that reads have returned are kept in order, and with each byte that was
thrown away the number of bytes that were waiting then.
-/
namespace Crius.Drivers.Keyboard

open Lib Run Function List

abbrev Byte := BitVec 8

/-- A byte of the buffer, with the number of its push. -/
structure Key where
  serial : ℕ
  byte : Byte
  deriving DecidableEq

/-- `KB_BUF_SIZE - 1` -/
def kbBufLast : ℕ := 255

abbrev Index := Fin (kbBufLast + 1)

/-- Where a task is in `kbd_dev_read`: outside, halted, or in `kb_buf_pop` with what it has read
so far. -/
inductive Reader where
  | idle
  | halted
  | gotHead (head : Index)
  | notEmpty
  | gotIndex (i : Index)
  | gotKey (key : Key)
  | gotTail (key : Key) (tail : Index)
  deriving DecidableEq

/-- The reader is inside of `kb_buf_pop`. -/
def Reader.popping : Reader → Bool
  | .idle => false
  | .halted => false
  | _ => true

/-- The statics, the tasks `R` that read, and what has happened. -/
structure Kbd (R : Type) where
  buf : Index → Key
  head : Index
  tail : Index
  readers : R → Reader
  pushed : List Key
  returned : List Key
  dropped : List ℕ

/-- The buffer at boot. -/
def boot (R : Type) : Kbd R where
  buf := fun _ => ⟨0, 0⟩
  head := 0
  tail := 0
  readers := fun _ => .idle
  pushed := []
  returned := []
  dropped := []

inductive Op (R : Type) where
  /-- an interrupt with a byte -/
  | push (c : Byte)
  /-- a task calls `kbd_dev_read` -/
  | read (r : R)
  /-- the next access of a task that has halted -/
  | step (r : R)

section Steps

variable {R : Type} [DecidableEq R]

namespace Kbd

def setReader (s : Kbd R) (r : R) (x : Reader) : Kbd R :=
  { s with readers := Function.update s.readers r x }

def kbBufPush (s : Kbd R) (c : Byte) : Kbd R :=
  let next := s.head + 1
  if next = s.tail then { s with dropped := (s.pushed.length - s.returned.length) :: s.dropped }
  else
    { s with
      buf := Function.update s.buf s.head ⟨s.pushed.length, c⟩
      head := next
      pushed := s.pushed ++ [⟨s.pushed.length, c⟩] }

/-- The end of a pop that has found a byte: `if (c) { buf[0] = c; return 1; }` -/
def deliver (s : Kbd R) (r : R) (key : Key) : Kbd R :=
  if key.byte ≠ 0 then { s.setReader r .idle with returned := s.returned ++ [key] }
  else s.setReader r .halted

/-- `kb_buf_pop` in one piece. -/
def kbBufPop (s : Kbd R) (r : R) : Kbd R :=
  if s.head = s.tail then s.setReader r .halted
  else deliver { s with tail := s.tail + 1 } r (s.buf s.tail)

/-- `kb_buf_pop` from one access to the next. -/
def popStep (s : Kbd R) (r : R) : Option (Kbd R) :=
  match s.readers r with
  | .idle => none
  | .halted => some (s.setReader r (.gotHead s.head))
  | .gotHead head => some (s.setReader r (if head = s.tail then .halted else .notEmpty))
  | .notEmpty => some (s.setReader r (.gotIndex s.tail))
  | .gotIndex i => some (s.setReader r (.gotKey (s.buf i)))
  | .gotKey key => some (s.setReader r (.gotTail key s.tail))
  | .gotTail key tail => some (deliver { s with tail := tail + 1 } r key)

end Kbd

/-- One step of the system. A byte that is pushed is not zero. -/
def kbdStep (s : Kbd R) : Op R → Option (Kbd R)
  | .push c => if c = 0 then none else some (s.kbBufPush c)
  | .read r => if s.readers r = .idle then some (s.kbBufPop r) else none
  | .step r => s.popStep r

/-- The bytes in the buffer, the oldest first. -/
def Kbd.waiting (s : Kbd R) : List Key := Ring.contents s.buf s.tail s.head

/-- No byte has been returned twice, the bytes that were stored have been returned in order or
are still waiting, and a byte was thrown away only when 255 were waiting. -/
structure Delivered (s : Kbd R) : Prop where
  once : s.returned.Nodup
  inOrder : s.pushed = s.returned ++ s.waiting
  full : ∀ d ∈ s.dropped, d = 255

/-- `kb_buf_pop` is entered only while no reader is inside of it. -/
def Alone (s : Kbd R) : Op R → Prop
  | .push _ => True
  | .read _ => ∀ r, (s.readers r).popping = false
  | .step r => s.readers r = .halted → ∀ r', (s.readers r').popping = false

instance [Fintype R] (s : Kbd R) : (op : Op R) → Decidable (Alone s op)
  | .push _ => isTrue trivial
  | .read _ => inferInstanceAs (Decidable (∀ r, (s.readers r).popping = false))
  | .step r => inferInstanceAs (Decidable (s.readers r = .halted → ∀ r', (s.readers r').popping = false))

/-! ## The invariant -/

/-- What a reader knows inside of `kb_buf_pop`, when no other one is there. -/
def Knows (s : Kbd R) : Reader → Prop
  | .idle => True
  | .halted => True
  | .gotHead head => head ≠ s.tail → s.head ≠ s.tail
  | .notEmpty => s.head ≠ s.tail
  | .gotIndex i => s.head ≠ s.tail ∧ i = s.tail
  | .gotKey key => s.head ≠ s.tail ∧ key = s.buf s.tail
  | .gotTail key tail => s.head ≠ s.tail ∧ key = s.buf s.tail ∧ tail = s.tail

structure Inv (s : Kbd R) : Prop where
  inOrder : s.pushed = s.returned ++ s.waiting
  serials : s.pushed.map Key.serial = List.range s.pushed.length
  nonzero : ∀ key ∈ s.pushed, key.byte ≠ 0
  full : ∀ d ∈ s.dropped, d = 255
  knows : ∀ r, Knows s (s.readers r)
  single : ∀ r r', (s.readers r).popping = true → (s.readers r').popping = true → r = r'

variable {s s' : Kbd R} {r : R}

omit [DecidableEq R] in
theorem Inv.delivered (h : Inv s) : Delivered s := by
  refine ⟨?_, h.inOrder, h.full⟩
  have hnodup : (s.pushed.map Key.serial).Nodup := by
    rw [h.serials]
    exact nodup_range
  have hpushed := hnodup.of_map
  rw [h.inOrder] at hpushed
  exact hpushed.of_append_left

omit [DecidableEq R] in
theorem inv_boot : Inv (boot R) := by
  refine ⟨?_, rfl, by simp [boot], by simp [boot], fun _ => trivial, fun _ _ h => ?_⟩
  · rw [Kbd.waiting, boot, Ring.contents_self]
    rfl
  · cases h

/-- A reader that moves on inside of `kb_buf_pop`, or leaves it with nothing. -/
theorem Inv.setReader {x : Reader} (h : Inv s) (hx : Knows s x)
    (halone : x.popping = true → ∀ r', r' ≠ r → (s.readers r').popping = false) :
    Inv (s.setReader r x) := by
  have hself : (s.setReader r x).readers r = x := update_self ..
  have hother {r' : R} (hne : r' ≠ r) : (s.setReader r x).readers r' = s.readers r' :=
    update_of_ne hne ..
  refine ⟨h.inOrder, h.serials, h.nonzero, h.full, fun r' => ?_, fun r1 r2 h1 h2 => ?_⟩
  · by_cases hr : r' = r
    · rw [hr, hself]
      exact hx
    · rw [hother hr]
      exact h.knows r'
  · by_cases hr1 : r1 = r
    · by_cases hr2 : r2 = r
      · rw [hr1, hr2]
      · rw [hr1, hself] at h1
        rw [hother hr2, halone h1 r2 hr2] at h2
        cases h2
    · by_cases hr2 : r2 = r
      · rw [hr2, hself] at h2
        rw [hother hr1, halone h2 r1 hr1] at h1
        cases h1
      · rw [hother hr1] at h1
        rw [hother hr2] at h2
        exact h.single r1 r2 h1 h2

/-- The oldest byte is taken, and nobody else is inside of `kb_buf_pop`. -/
theorem Inv.take (h : Inv s) (hne : s.head ≠ s.tail)
    (halone : ∀ r', r' ≠ r → (s.readers r').popping = false) :
    Inv (Kbd.deliver { s with tail := s.tail + 1 } r (s.buf s.tail)) := by
  have hpop : s.waiting = s.buf s.tail :: Ring.contents s.buf (s.tail + 1) s.head :=
    Ring.contents_pop hne
  have horder := h.inOrder
  rw [hpop] at horder
  have hbyte : (s.buf s.tail).byte ≠ 0 := by
    apply h.nonzero
    rw [horder]
    exact mem_append_right _ mem_cons_self
  rw [Kbd.deliver, if_pos hbyte]
  have hquiet (r' : R) : ((update s.readers r .idle) r').popping = false := by
    by_cases hr : r' = r
    · rw [hr, update_self]
      rfl
    · rw [update_of_ne hr]
      exact halone r' hr
  refine ⟨?_, h.serials, h.nonzero, h.full, fun r' => ?_, fun r1 _ h1 => ?_⟩
  · rw [Kbd.waiting]
    rw [append_assoc]
    exact horder
  · have hidle := hquiet r'
    show Knows _ (update s.readers r .idle r')
    cases hx : update s.readers r .idle r' with
    | idle => trivial
    | halted => trivial
    | _ =>
      rw [hx] at hidle
      cases hidle
  · have hpop : ((update s.readers r .idle) r1).popping = true := h1
    rw [hquiet r1] at hpop
    cases hpop

omit [DecidableEq R] in
theorem Inv.push {c : Byte} (h : Inv s) (hc : c ≠ 0) : Inv (s.kbBufPush c) := by
  have hcount : s.waiting.length = s.pushed.length - s.returned.length := by
    rw [h.inOrder, length_append, Nat.add_sub_cancel_left]
  rw [Kbd.kbBufPush]
  split_ifs with hfull
  · refine ⟨h.inOrder, h.serials, h.nonzero, fun d hd => ?_, h.knows, h.single⟩
    rcases mem_cons.mp hd with rfl | hd
    · rw [← hcount]
      exact Ring.length_of_full hfull
    · exact h.full d hd
  · have hnext : s.head + 1 ≠ s.tail := hfull
    refine ⟨?_, ?_, fun key hkey => ?_, h.full, fun r => ?_, h.single⟩
    · show s.pushed ++ [_] =
        s.returned ++ Ring.contents (update s.buf s.head _) s.tail (s.head + 1)
      rw [Ring.contents_push hnext, ← append_assoc, h.inOrder]
      rfl
    · rw [map_append, h.serials, length_append, length_singleton, range_succ]
      rfl
    · rcases mem_append.mp hkey with hold | hnew
      · exact h.nonzero key hold
      · rw [mem_singleton.mp hnew]
        exact hc
    · have hknows := h.knows r
      have hbuf (hne : s.head ≠ s.tail) : update s.buf s.head ⟨s.pushed.length, c⟩ s.tail =
          s.buf s.tail := update_of_ne (Ne.symm hne) ..
      cases hx : s.readers r with
      | idle => trivial
      | halted => trivial
      | gotHead head => exact fun _ => hnext
      | notEmpty => exact hnext
      | gotIndex i =>
        rw [hx] at hknows
        exact ⟨hnext, hknows.2⟩
      | gotKey key =>
        rw [hx] at hknows
        exact ⟨hnext, hknows.2.trans (hbuf hknows.1).symm⟩
      | gotTail key tail =>
        rw [hx] at hknows
        exact ⟨hnext, hknows.2.1.trans (hbuf hknows.1).symm, hknows.2.2⟩

theorem Inv.popStep (h : Inv s) (halone : Alone s (.step r)) (hs : s.popStep r = some s') :
    Inv s' := by
  have hknows := h.knows r
  have hothers (hin : (s.readers r).popping = true) (r' : R) (hr : r' ≠ r) :
      (s.readers r').popping = false := by
    apply Bool.eq_false_of_not_eq_true
    intro hpop
    exact hr (h.single r' r hpop hin)
  rw [Kbd.popStep] at hs
  cases hx : s.readers r with
  | idle =>
    rw [hx] at hs
    cases hs
  | halted =>
    rw [hx] at hs
    cases hs
    exact h.setReader (fun hne => hne) fun _ r' _ => halone hx r'
  | gotHead head =>
    rw [hx] at hs hknows hothers
    cases hs
    split_ifs with hempty
    · exact h.setReader trivial fun hpop => by cases hpop
    · exact h.setReader (hknows hempty) fun _ => hothers rfl
  | notEmpty =>
    rw [hx] at hs hknows hothers
    cases hs
    exact h.setReader ⟨hknows, rfl⟩ fun _ => hothers rfl
  | gotIndex i =>
    rw [hx] at hs hknows hothers
    cases hs
    refine h.setReader ⟨hknows.1, ?_⟩ fun _ => hothers rfl
    rw [hknows.2]
  | gotKey key =>
    rw [hx] at hs hknows hothers
    cases hs
    exact h.setReader ⟨hknows.1, hknows.2, rfl⟩ fun _ => hothers rfl
  | gotTail key tail =>
    rw [hx] at hs hknows hothers
    obtain ⟨hne, rfl, rfl⟩ := hknows
    cases hs
    exact h.take hne (hothers rfl)

theorem Inv.step {op : Op R} (h : Inv s) (halone : Alone s op) (hs : kbdStep s op = some s') :
    Inv s' := by
  cases op with
  | push c =>
    rw [kbdStep, Option.ite_none_left_eq_some] at hs
    obtain ⟨hc, hs⟩ := hs
    cases hs
    exact h.push hc
  | read r =>
    rw [kbdStep, Option.ite_none_right_eq_some] at hs
    obtain ⟨-, hs⟩ := hs
    cases hs
    rw [Kbd.kbBufPop]
    split_ifs with hempty
    · exact h.setReader trivial fun hpop => by cases hpop
    · exact h.take hempty fun r' _ => halone r'
  | step r => exact h.popStep halone hs

/-- Bytes are delivered once and in order in every run in which no reader enters `kb_buf_pop`
while another one is inside. -/
theorem kbd_delivered_once {ops : List (Op R)} (halone : Along kbdStep Alone (boot R) ops)
    (hr : run kbdStep (boot R) ops = some s) : Delivered s :=
  (run_invariant_along kbdStep (fun _ _ _ h hc hs => h.step hc hs) inv_boot halone hr).delivered

end Steps

/-- A reader that has halted takes a byte while another one comes, and a second reader takes
that one. -/
def twoBytes : List (Op (Fin 2)) :=
  [.read 0, .push 0x61] ++ List.replicate 3 (.step 0) ++ [.push 0x62] ++ List.replicate 3 (.step 0) ++
    [.read 1]

theorem kbd_delivered_once_two_bytes :
    ∃ s, run kbdStep (boot (Fin 2)) twoBytes = some s ∧ s.returned = [⟨0, 0x61⟩, ⟨1, 0x62⟩] ∧
      Delivered s := by
  have halone : Along kbdStep Alone (boot (Fin 2)) twoBytes := by decide
  exact ⟨_, rfl, by decide, kbd_delivered_once halone rfl⟩

/-- Two readers have halted. The first one has loaded the byte when the second one pops it, and
goes on afterwards. -/
def twoReaders : List (Op (Fin 2)) :=
  [.read 0, .read 1, .push 0x61] ++ List.replicate 4 (.step 0) ++ List.replicate 6 (.step 1) ++
    List.replicate 2 (.step 0) ++ [.push 0x62]

/-- Both return the same byte, and the next byte is thrown away while none is waiting. -/
theorem kbd_delivers_twice :
    ∃ s, run kbdStep (boot (Fin 2)) twoReaders = some s ∧
      s.returned = [⟨0, 0x61⟩, ⟨0, 0x61⟩] ∧ s.dropped = [0] ∧ ¬Delivered s := by
  refine ⟨_, rfl, by decide, by decide, fun h => ?_⟩
  have honce := h.once
  revert honce
  decide

end Crius.Drivers.Keyboard
