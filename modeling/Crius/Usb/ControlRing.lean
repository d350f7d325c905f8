import Crius.Lib.Run
import Crius.Usb.Trb

/-!
# The ring of endpoint 0

`xhci_control_in` and `xhci_control_out` put transfer descriptors of three and two blocks
on one ring. A descriptor that does not fit before the Link block is put at the start of
the ring instead. The blocks that are left out then still have the other cycle bit, and the
controller stops at the first of them: it follows the Link block only from the end of the
ring.
-/
namespace Crius.Usb

open Lib CycleRing List Run

/-- The driver's variables for the ring; `ep0Enq` counts words. -/
structure Ep0 where
  ep0TrPhys : PhysPage
  ep0Tr : Page
  ep0Enq : Nat
  ep0Cycle : Word

/-- The ring as `xhci_address_device` leaves it. -/
def addressDevice (ep0TrPhys : PhysPage) : Ep0 where
  ep0TrPhys := ep0TrPhys
  ep0Tr := Page.zero.write 1020 (linkTrb ep0TrPhys.addr)
  ep0Enq := 0
  ep0Cycle := 1#32

/-- The arguments of a control transfer. -/
inductive Transfer where
  | controlIn (bmRequestType bRequest : BitVec 8) (wValue wIndex wLength : BitVec 16)
      (dataPhys : BitVec 64)
  | controlOut (bmRequestType bRequest : BitVec 8) (wValue wIndex : BitVec 16)
  deriving DecidableEq, Repr

/-- A 16-bit argument as two bytes of a word. -/
def twoBytes (w : BitVec 16) (shift : Nat) : Word :=
  ((w.setWidth 32 &&& 0xFF#32) <<< shift) |||
    (((w.setWidth 32 >>> 8) &&& 0xFF#32) <<< (shift + 8))

namespace Transfer

/-- The words that the transfer takes on the ring. -/
def words : Transfer → Nat
  | controlIn .. => 12
  | controlOut .. => 8

/-- The blocks of the transfer descriptor, for the cycle state `cyc`. -/
def td (cyc : Word) : Transfer → List Trb
  | controlIn bmRequestType bRequest wValue wIndex wLength dataPhys =>
    [⟨bmRequestType.setWidth 32 ||| (bRequest.setWidth 32 <<< 8) ||| twoBytes wValue 16,
        twoBytes wIndex 0 ||| twoBytes wLength 16, 8#32,
        (2#32 <<< 10) ||| (1#32 <<< 6) ||| (3#32 <<< 16) ||| cyc⟩,
      ⟨dataPhys.setWidth 32, (dataPhys >>> 32).setWidth 32, wLength.setWidth 32,
        (3#32 <<< 10) ||| (1#32 <<< 16) ||| cyc⟩,
      ⟨0#32, 0#32, 0#32, (4#32 <<< 10) ||| (1#32 <<< 5) ||| cyc⟩]
  | controlOut bmRequestType bRequest wValue wIndex =>
    [⟨bmRequestType.setWidth 32 ||| (bRequest.setWidth 32 <<< 8) ||| twoBytes wValue 16,
        twoBytes wIndex 0, 8#32, (2#32 <<< 10) ||| (1#32 <<< 6) ||| (0#32 <<< 16) ||| cyc⟩,
      ⟨0#32, 0#32, 0#32, (4#32 <<< 10) ||| (1#32 <<< 5) ||| (1#32 <<< 16) ||| cyc⟩]

end Transfer

/-- The wrap at the head of both functions. -/
def makeRoom (x : Ep0) (words : Nat) : Ep0 :=
  if x.ep0Enq + words > 1020 then
    { x with ep0Tr := x.ep0Tr.flipLink 255, ep0Cycle := x.ep0Cycle ^^^ 1#32, ep0Enq := 0 }
  else x

/-- The part of both functions that comes before the doorbell. -/
def enqueueTd (x : Ep0) (t : Transfer) : Ep0 :=
  let x := makeRoom x t.words
  { x with ep0Tr := writeAll x.ep0Tr (x.ep0Enq / 4) (t.td x.ep0Cycle) }

/-- One transfer, seen from both sides: where its descriptor was put and what the controller
then fetched. -/
structure Executed where
  td : List Trb
  first : Nat
  fetched : List (Nat × Trb)

/-- The controller has executed the descriptor and nothing else. -/
def Executed.Exact (e : Executed) : Prop := e.fetched = placed e.first e.td

instance (e : Executed) : Decidable e.Exact := inferInstanceAs (Decidable (_ = _))

/-- The driver, the controller's side of the ring, and the transfers so far. -/
structure Ep0Session where
  driver : Ep0
  hc : Cursor
  log : List Executed

/-- The ring after `xhci_address_device` has passed the endpoint context to the controller. -/
def Ep0Session.start (ep0TrPhys : PhysPage) : Ep0Session where
  driver := addressDevice ep0TrPhys
  hc := loadCursor ep0TrPhys.addr (ep0TrPhys.addr ||| 1#64)
  log := []

/-- The status block of a descriptor is executed, so a successful transfer event is posted. -/
def completes (fetched : List (Nat × Trb)) : Bool := fetched.any fun f => f.2.type = 4#32

/-- A control transfer, with the controller fetching when the doorbell rings. The enqueue
position moves on when the transfer completes. -/
def transfer (s : Ep0Session) (t : Transfer) : Option Ep0Session :=
  let x := enqueueTd s.driver t
  (doorbell x.ep0TrPhys.addr x.ep0Tr s.hc).map fun r =>
    ⟨if completes r.1 then { x with ep0Enq := x.ep0Enq + t.words } else x, r.2,
      s.log ++ [⟨t.td x.ep0Cycle, x.ep0Enq / 4, r.1⟩]⟩

/-! ## Descriptors -/

/-- The cycle state of the driver is 0 or 1. -/
def IsBit (w : Word) : Prop := w = 0#32 ∨ w = 1#32

theorem IsBit.flip {w : Word} (h : IsBit w) : IsBit (w ^^^ 1#32) := by
  rcases h with rfl | rfl
  · exact .inr rfl
  · exact .inl rfl

theorem length_td (cyc : Word) (t : Transfer) : 4 * (t.td cyc).length = t.words := by
  cases t <;> rfl

/-- The last words of the blocks that the two functions write. -/
def controlWords (cyc : Word) : List Word :=
  [(2#32 <<< 10) ||| (1#32 <<< 6) ||| (3#32 <<< 16) ||| cyc,
    (3#32 <<< 10) ||| (1#32 <<< 16) ||| cyc,
    (4#32 <<< 10) ||| (1#32 <<< 5) ||| cyc,
    (2#32 <<< 10) ||| (1#32 <<< 6) ||| (0#32 <<< 16) ||| cyc,
    (4#32 <<< 10) ||| (1#32 <<< 5) ||| (1#32 <<< 16) ||| cyc]

theorem td_controlWords (cyc : Word) (t : Transfer) : ∀ e ∈ t.td cyc, e.dw3 ∈ controlWords cyc := by
  intro e he
  cases t with
  | controlIn =>
    simp only [Transfer.td, mem_cons, not_mem_nil, or_false] at he
    rcases he with rfl | rfl | rfl <;> simp [controlWords]
  | controlOut =>
    simp only [Transfer.td, mem_cons, not_mem_nil, or_false] at he
    rcases he with rfl | rfl <;> simp [controlWords]

/-- Every block of a descriptor has the driver's cycle state and none is a Link block. -/
theorem td_work {cyc : Word} (hcyc : IsBit cyc) (base : BitVec 64) (t : Transfer) :
    ∀ e ∈ t.td cyc, (controller base).cycle e = cyc.getLsbD 0 ∧ (controller base).link e = none := by
  intro e he
  have hwords : ∀ w ∈ controlWords cyc,
      w.getLsbD 0 = cyc.getLsbD 0 ∧ (w >>> 10) &&& 0x3F#32 ≠ linkType := by
    simp only [controlWords, forall_mem_cons, not_mem_nil, false_implies, implies_true,
      and_true]
    rcases hcyc with rfl | rfl
    · decide
    · decide
  obtain ⟨hcycle, htype⟩ := hwords e.dw3 (td_controlWords cyc t e he)
  have hlink : e.type ≠ linkType := htype
  refine ⟨hcycle, ?_⟩
  simp only [controller, if_neg hlink]

/-- The last block of a descriptor completes the transfer. -/
theorem completes_td {cyc : Word} (hcyc : IsBit cyc) (i : Nat) (t : Transfer) :
    completes (placed i (t.td cyc)) = true := by
  rcases hcyc with rfl | rfl <;> cases t <;> simp [completes, placed, Transfer.td, Trb.type]

theorem words_le (t : Transfer) : t.words ≤ 12 := by
  cases t with
  | controlIn => exact le_rfl
  | controlOut => exact Nat.le_add_right 8 4

theorem td_ne_nil (cyc : Word) (t : Transfer) : t.td cyc ≠ [] := by
  cases t <;> exact cons_ne_nil _ _

/-! ## The ring -/

/-- The two sides are in step. -/
structure Ep0Ready (s : Ep0Session) : Prop where
  bit : IsBit s.driver.ep0Cycle
  words : s.driver.ep0Enq % 4 = 0
  ring : InStep (controller s.driver.ep0TrPhys.addr) 255
    (producer s.driver.ep0Tr (s.driver.ep0Enq / 4) (s.driver.ep0Cycle.getLsbD 0)) s.hc

/-- The descriptor fits before the Link block, or the ring is used up to the Link block. -/
def Fits (s : Ep0Session) (t : Transfer) : Prop :=
  s.driver.ep0Enq + t.words ≤ 1020 ∨ s.driver.ep0Enq = 1020

instance (s : Ep0Session) (t : Transfer) : Decidable (Fits s t) := inferInstanceAs (Decidable (_ ∨ _))

theorem ep0Ready_start (ep0TrPhys : PhysPage) : Ep0Ready (Ep0Session.start ep0TrPhys) where
  bit := .inr rfl
  words := rfl
  ring := by
    have hbit : (1#32).getLsbD 0 = true := by decide
    unfold Ep0Session.start addressDevice
    dsimp only
    rw [hbit]
    exact inStep_fresh ep0TrPhys 255

theorem makeRoom_cases (x : Ep0) (words : Nat) :
    (x.ep0Enq + words ≤ 1020 ∧ makeRoom x words = x) ∨
    (1020 < x.ep0Enq + words ∧ makeRoom x words =
      { x with ep0Tr := x.ep0Tr.flipLink 255, ep0Cycle := x.ep0Cycle ^^^ 1#32, ep0Enq := 0 }) := by
  unfold makeRoom
  by_cases h : x.ep0Enq + words > 1020
  · exact .inr ⟨h, if_pos h⟩
  · exact .inl ⟨not_lt.mp h, if_neg h⟩

theorem bit_flip (w : Word) : (w ^^^ 1#32).getLsbD 0 = !w.getLsbD 0 := by simp

variable {s s' : Ep0Session} {t : Transfer}

/-- What a transfer comes to, from what the controller fetches. -/
theorem transfer_of_fetch {x : Ep0} {i : Nat} {r : List (Nat × Trb) × Cursor}
    (hx : makeRoom s.driver t.words = x) (hi : x.ep0Enq / 4 = i)
    (hfetch : doorbell x.ep0TrPhys.addr (writeAll x.ep0Tr i (t.td x.ep0Cycle)) s.hc = some r) :
    transfer s t = some ⟨{ x with
        ep0Tr := writeAll x.ep0Tr i (t.td x.ep0Cycle)
        ep0Enq := if completes r.1 then x.ep0Enq + t.words else x.ep0Enq }, r.2,
      s.log ++ [⟨t.td x.ep0Cycle, i, r.1⟩]⟩ := by
  unfold transfer enqueueTd
  dsimp only
  rw [hx, hi, hfetch, Option.map_some]
  cases completes r.1 <;> rfl

/-- What it comes to when the controller fetches the whole descriptor. -/
theorem transfer_of_exact {x : Ep0} {i : Nat} {hc' : Cursor}
    (hx : makeRoom s.driver t.words = x) (hi : x.ep0Enq / 4 = i) (hbit : IsBit x.ep0Cycle)
    (hfetch : doorbell x.ep0TrPhys.addr (writeAll x.ep0Tr i (t.td x.ep0Cycle)) s.hc =
      some (placed i (t.td x.ep0Cycle), hc')) :
    transfer s t = some ⟨{ x with
        ep0Tr := writeAll x.ep0Tr i (t.td x.ep0Cycle)
        ep0Enq := x.ep0Enq + t.words }, hc',
      s.log ++ [⟨t.td x.ep0Cycle, i, placed i (t.td x.ep0Cycle)⟩]⟩ := by
  rw [transfer_of_fetch hx hi hfetch]
  rw [if_pos (completes_td hbit i t)]

/-- A transfer that fits is executed, and the two sides stay in step. -/
theorem transfer_fits (h : Ep0Ready s) (hfit : Fits s t) :
    ∃ s' e, transfer s t = some s' ∧ Ep0Ready s' ∧ s'.log = s.log ++ [e] ∧ e.Exact := by
  have hlen := length_td s.driver.ep0Cycle t
  have hwords := h.words
  have hstep (q : Nat) (hq : q % 4 = 0) (cyc : Word) :
      (q + t.words) % 4 = 0 ∧ (q + t.words) / 4 = q / 4 + (t.td cyc).length := by
    have hl := length_td cyc t
    omega
  rcases makeRoom_cases s.driver t.words with ⟨hroom, hx⟩ | ⟨hfull, hx⟩
  · obtain ⟨hc', hdrain, hring⟩ := h.ring.put
      (puts_writeAll s.driver.ep0Tr 255 (s.driver.ep0Enq / 4) (s.driver.ep0Cycle.getLsbD 0)
        (t.td s.driver.ep0Cycle)) (td_work h.bit _ t) (by
          change s.driver.ep0Enq / 4 + (t.td s.driver.ep0Cycle).length ≤ 255
          omega)
    have hfetch := doorbell_of_drain hdrain (by omega)
    refine ⟨_, _, transfer_of_exact hx rfl h.bit hfetch, ?_, rfl, rfl⟩
    obtain ⟨hmod, hdiv⟩ := hstep _ hwords s.driver.ep0Cycle
    refine ⟨h.bit, hmod, ?_⟩
    rw [hdiv]
    exact hring
  · have hend : s.driver.ep0Enq = 1020 := by
      rcases hfit with hfit | hfit
      · omega
      · exact hfit
    have hbit : IsBit (s.driver.ep0Cycle ^^^ 1#32) := h.bit.flip
    have hlen' := length_td (s.driver.ep0Cycle ^^^ 1#32) t
    have hsmall := words_le t
    have hwrap := wraps_flipLink s.driver.ep0TrPhys.addr s.driver.ep0Tr 255 (s.driver.ep0Enq / 4)
      (s.driver.ep0Cycle.getLsbD 0)
    rw [← bit_flip] at hwrap
    obtain ⟨hc', hdrain, hring⟩ := h.ring.wrap_put (by
        change s.driver.ep0Enq / 4 = 255
        omega) hwrap
      (puts_writeAll (s.driver.ep0Tr.flipLink 255) 255 0
        ((s.driver.ep0Cycle ^^^ 1#32).getLsbD 0) (t.td (s.driver.ep0Cycle ^^^ 1#32)))
      (td_work hbit _ t) (by omega)
    have hfetch := doorbell_of_drain hdrain (by omega)
    refine ⟨_, _, transfer_of_exact hx (Nat.zero_div 4) hbit hfetch, ?_, rfl, rfl⟩
    obtain ⟨hmod, hdiv⟩ := hstep 0 rfl (s.driver.ep0Cycle ^^^ 1#32)
    refine ⟨hbit, hmod, ?_⟩
    rw [hdiv]
    exact hring

/-- A transfer that leaves blocks out before the Link block is not executed at all. -/
theorem transfer_gap (h : Ep0Ready s) (hgap : ¬ Fits s t) :
    ∃ s' e, transfer s t = some s' ∧ s'.log = s.log ++ [e] ∧ ¬ e.Exact := by
  unfold Fits at hgap
  have hle : s.driver.ep0Enq / 4 ≤ 255 := h.ring.le
  have hwords := h.words
  rcases makeRoom_cases s.driver t.words with ⟨hroom, -⟩ | ⟨hfull, hx⟩
  · exact absurd (.inl hroom) hgap
  · have hlen := length_td (s.driver.ep0Cycle ^^^ 1#32) t
    have hsmall := words_le t
    have hwrap := wraps_flipLink s.driver.ep0TrPhys.addr s.driver.ep0Tr 255 (s.driver.ep0Enq / 4)
      (s.driver.ep0Cycle.getLsbD 0)
    have hdrain := h.ring.wrap_early (by
        change s.driver.ep0Enq / 4 < 255
        omega) hwrap
      (puts_writeAll (s.driver.ep0Tr.flipLink 255) 255 0 (!s.driver.ep0Cycle.getLsbD 0)
        (t.td (s.driver.ep0Cycle ^^^ 1#32))) (by
          change (t.td (s.driver.ep0Cycle ^^^ 1#32)).length ≤ s.driver.ep0Enq / 4
          omega) 0
    have hfetch := doorbell_of_drain hdrain (by decide)
    refine ⟨_, _, transfer_of_fetch hx (Nat.zero_div 4) hfetch, rfl, ?_⟩
    intro hexact
    have hnil : placed 0 (t.td (s.driver.ep0Cycle ^^^ 1#32)) = [] := hexact.symm
    cases htd : t.td (s.driver.ep0Cycle ^^^ 1#32) with
    | nil => exact td_ne_nil _ t htd
    | cons e es =>
      rw [htd] at hnil
      cases hnil

/-! ## Sequences of transfers -/

/-- Every transfer so far has been executed. -/
def Ep0Session.Clean (s : Ep0Session) : Prop := ∀ e ∈ s.log, e.Exact

theorem transfer_log (h : transfer s t = some s') : ∃ e, s'.log = s.log ++ [e] := by
  obtain ⟨r, -, rfl⟩ := Option.map_eq_some_iff.mp h
  exact ⟨_, rfl⟩

theorem clean_append {e : Executed} (h : s'.log = s.log ++ [e]) : s'.Clean ↔ s.Clean ∧ e.Exact := by
  unfold Ep0Session.Clean
  rw [h, forall_mem_append, forall_mem_singleton]

/-- Starting from the state that `xhci_address_device` sets up, for every sequence of control
transfers: if each of them fits before the Link block or finds the ring used up exactly to
it, the controller executes exactly these descriptors in order; and a sequence of which
every descriptor was executed is of this kind. -/
theorem ep0_ring_protocol (ep0TrPhys : PhysPage) (ts : List Transfer) :
    (Run.Along transfer Fits (Ep0Session.start ep0TrPhys) ts →
      ∃ s, Run.run transfer (Ep0Session.start ep0TrPhys) ts = some s ∧ s.log.length = ts.length ∧
        ∀ e ∈ s.log, e.Exact) ∧
    (∀ s, Run.run transfer (Ep0Session.start ep0TrPhys) ts = some s → (∀ e ∈ s.log, e.Exact) →
      Run.Along transfer Fits (Ep0Session.start ep0TrPhys) ts) := by
  have hready := ep0Ready_start ep0TrPhys
  have hclean : (Ep0Session.start ep0TrPhys).Clean := fun e he => absurd he not_mem_nil
  constructor
  · intro hfits
    obtain ⟨s, hrun, -, hexact, hlen⟩ :=
      run_clean transfer clean_append transfer_fits hready hclean hfits
    exact ⟨s, hrun, hlen.trans (Nat.zero_add _), hexact⟩
  · intro s hrun hexact
    exact along_of_clean transfer clean_append transfer_log transfer_fits transfer_gap hready hrun
      hexact

/-- A request without data, as for `SET_CONFIGURATION`. -/
def setConfiguration : Transfer := .controlOut 0x00#8 0x09#8 1#16 0#16

/-- A request for a device descriptor. -/
def getDescriptor : Transfer := .controlIn 0x80#8 0x06#8 0x0100#16 0#16 64#16 0x2000#64

/-- 85 transfers of three blocks fill the ring to the Link block, and one more comes after it. -/
theorem ep0_ring_protocol_wraps :
    ∃ s, Run.run transfer (Ep0Session.start lowPage) (replicate 86 getDescriptor) = some s ∧
      s.log.length = 86 ∧ ∀ e ∈ s.log, e.Exact :=
  (ep0_ring_protocol lowPage (replicate 86 getDescriptor)).1 (by decide +kernel)

/-- After one transfer of two blocks and 84 of three blocks, the next one leaves one block
out before the Link block, and the controller fetches nothing of it. -/
theorem ep0_ring_stalls :
    ∃ s s' e, Run.run transfer (Ep0Session.start lowPage)
        (setConfiguration :: List.replicate 84 getDescriptor) = some s ∧
      (∀ e ∈ s.log, e.Exact) ∧ transfer s getDescriptor = some s' ∧ s'.log = s.log ++ [e] ∧
      e.fetched = [] ∧ ¬ e.Exact := by
  have hrun : ((Run.run transfer (Ep0Session.start lowPage)
      (setConfiguration :: replicate 84 getDescriptor)).bind fun s =>
        (transfer s getDescriptor).map fun s' =>
          (s.log.all fun e => e.Exact, s'.log.getLast?.map fun e => (e.fetched, decide e.Exact))) =
      some (true, some ([], false)) := by
    decide +kernel
  obtain ⟨s, hs, hmap⟩ := Option.bind_eq_some_iff.mp hrun
  obtain ⟨s', hs', hend⟩ := Option.map_eq_some_iff.mp hmap
  obtain ⟨e, hlog⟩ := transfer_log hs'
  rw [hlog, getLast?_concat, Option.map_some, Prod.mk.injEq, Option.some.injEq, Prod.mk.injEq] at hend
  obtain ⟨hall, hfetched, hnot⟩ := hend
  refine ⟨s, s', e, hs, fun e he => ?_, hs', hlog, hfetched, of_decide_eq_false hnot⟩
  exact of_decide_eq_true (all_eq_true.mp hall e he)

end Crius.Usb
