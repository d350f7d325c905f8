import Crius.Lib.CycleQueue
import Crius.Usb.CommandRing
import Crius.Usb.ControlRing

/-!
# The keyboard's interrupt endpoint

A ring of one block and a Link block, re-armed by every `usb_kbd_poll` that finds a report,
and the event ring that the poll shares with all other devices. The controller fetches a
block, has the transfer outstanding until the keyboard reports, and then posts an event.
It may post events at any time, also between two rounds of the loop of a poll, as long as
the event ring is not full.

The loop of the poll gives up after 256 events of other slots. It then does not return but
goes on as if it had found a report. The contents of the reports, which do not touch the
rings, are left out.
-/
namespace Crius.Usb

open Lib CycleRing List BitVec Option

namespace Trb

def slot (t : Trb) : BitVec 8 := (t.dw3 >>> 24).setWidth 8

def endpoint (t : Trb) : BitVec 8 := ((t.dw3 >>> 16) &&& 0x1F#32).setWidth 8

/-- The completion code of an event. -/
def code (t : Trb) : BitVec 8 := (t.dw2 >>> 24).setWidth 8

end Trb

/-- The driver's variables for the keyboard. -/
structure Kbd where
  host : Xhci
  slotId : BitVec 8
  ep1Id : BitVec 8
  ep1TrPhys : PhysPage
  ep1Tr : Page
  ep1Cycle : Word
  ep1DataPhys : BitVec 64
  ep1Maxpkt : BitVec 16

/-- The block that asks for one report. -/
def reportTrb (k : Kbd) (cycle : Word) : Trb :=
  ⟨k.ep1DataPhys.setWidth 32, (k.ep1DataPhys >>> 32).setWidth 32, k.ep1Maxpkt.setWidth 32,
    (1#32 <<< 10) ||| (1#32 <<< 5) ||| cycle⟩

/-- An event of the keyboard's endpoint. -/
def IsReport (k : Kbd) (ev : Trb) : Prop := ev.slot = k.slotId ∧ ev.endpoint = k.ep1Id

instance (k : Kbd) (ev : Trb) : Decidable (IsReport k ev) := inferInstanceAs (Decidable (_ ∧ _))

/-- The completion codes that the poll takes for a report. -/
def GoodCode (ev : Trb) : Prop := ev.code = 1#8 ∨ ev.code = 13#8 ∨ ev.code = 6#8

instance (ev : Trb) : Decidable (GoodCode ev) := inferInstanceAs (Decidable (_ ∨ _))

/-- What one poll did: its result, how many events of the keyboard's endpoint it consumed,
and what the controller fetched after it. -/
structure Polled where
  result : Bool
  consumed : Nat
  fetched : List (Nat × Trb)
  deriving DecidableEq, Repr

/-- A poll that returns 1 has consumed one completion and re-armed the endpoint once; any
other poll has done neither. -/
def Polled.Exact (p : Polled) : Prop :=
  (p.result = true → p.consumed = 1 ∧ p.fetched.length = 1) ∧
    (p.result = false → p.consumed = 0 ∧ p.fetched = [])

/-- The driver and the controller: the memory of the event ring with the controller's
enqueue position, its side of the keyboard's ring, the transfers it has fetched and not yet
completed, and the numbers of completions posted and consumed. -/
structure KbdSystem where
  kbd : Kbd
  mem : Nat → Trb
  enq : Nat
  pcs : Bool
  hc : Cursor
  outstanding : List (Nat × Trb)
  posted : Nat
  consumed : Nat
  log : List Polled

namespace KbdSystem

/-- The controller writes an event at its enqueue position. -/
def writeEvent (s : KbdSystem) (ev : Trb) : KbdSystem :=
  { s with
    mem := Function.update s.mem s.enq (stamped ev (if s.pcs then 1#32 else 0#32))
    enq := (CycleQueue.next 256 s.enq s.pcs).1
    pcs := (CycleQueue.next 256 s.enq s.pcs).2 }

/-- The controller posts an event. It waits while the event ring is full; it completes only
transfers that are outstanding, and those with code 1, 6 or 13. -/
def post (s : KbdSystem) (ev : Trb) : KbdSystem :=
  if ev.type = 0#32 ∨ (s.enq + 1) % 256 = s.kbd.host.eventIdx then s
  else if IsReport s.kbd ev then
    if s.outstanding = [] ∨ ¬ GoodCode ev then s
    else { s.writeEvent ev with outstanding := s.outstanding.tail, posted := s.posted + 1 }
  else s.writeEvent ev

/-- The driver moves on to the next event. -/
def advance (s : KbdSystem) : KbdSystem :=
  { s with
    kbd := { s.kbd with host := advanceEvent s.kbd.host s.kbd.host.eventIdx }
    consumed := if IsReport s.kbd (s.mem s.kbd.host.eventIdx) then s.consumed + 1 else s.consumed }

end KbdSystem

/-- The loop of `usb_kbd_poll`; `posts` are the events that the controller wants to post
before each round. The result is `false` if the function returns 0 from inside the loop. -/
def pollLoop (posts : Nat → List Trb) : Nat → Nat → KbdSystem → Bool × KbdSystem
  -- the loop condition fails and the function goes on
  | 0, _, s => (true, s)
  | n + 1, i, s =>
    let s := (posts i).foldl KbdSystem.post s
    let ev := s.mem s.kbd.host.eventIdx
    if ev.type = 0#32 then (false, s)
    else if ev.dw3 &&& 1#32 ≠ s.kbd.host.eventCycle then (false, s)
    else if ev.slot ≠ s.kbd.slotId then pollLoop posts n (i + 1) s.advance
    else if ev.endpoint ≠ s.kbd.ep1Id ∨ (ev.code ≠ 1#8 ∧ ev.code ≠ 13#8 ∧ ev.code ≠ 6#8) then
      (false, s.advance)
    else (true, s.advance)

/-- The end of `usb_kbd_poll` before the doorbell: the Link block and the cycle state are
toggled and the block is written again. -/
def rearm (k : Kbd) : Kbd :=
  let k := { k with ep1Tr := k.ep1Tr.flipLink 1, ep1Cycle := k.ep1Cycle ^^^ 1#32 }
  { k with ep1Tr := k.ep1Tr.write 0 (reportTrb k k.ep1Cycle) }

def usbKbdPoll (s : KbdSystem) (posts : Nat → List Trb) : Option KbdSystem :=
  match pollLoop posts 256 0 s with
  | (false, s') => some { s' with log := s.log ++ [⟨false, s'.consumed - s.consumed, []⟩] }
  | (true, s') =>
    let k := rearm s'.kbd
    (doorbell k.ep1TrPhys.addr k.ep1Tr s'.hc).map fun r =>
      { s' with
        kbd := k
        hc := r.2
        outstanding := s'.outstanding ++ r.1
        log := s.log ++ [⟨true, s'.consumed - s.consumed, r.1⟩] }

/-- The end of `xhci_configure_hid`, after the controller has accepted the endpoint context. -/
def configureHid (s : KbdSystem) : Option KbdSystem :=
  let k := { s.kbd with
    ep1Cycle := 1#32
    ep1Tr := (Page.zero.write 0 (reportTrb s.kbd 1#32)).write 4 (linkTrb s.kbd.ep1TrPhys.addr) }
  (doorbell k.ep1TrPhys.addr k.ep1Tr (loadCursor k.ep1TrPhys.addr (k.ep1TrPhys.addr ||| 1#64))).map
    fun r => ⟨k, s.mem, s.enq, s.pcs, r.2, r.1, 0, 0, []⟩

/-- The controller has an event of another slot ready for the driver. -/
def Busy (s : KbdSystem) : Prop :=
  s.enq ≠ s.kbd.host.eventIdx ∧ (s.mem s.kbd.host.eventIdx).slot ≠ s.kbd.slotId

/-- In each of `n` rounds the controller has an event of another slot ready. -/
def Flooded (posts : Nat → List Trb) : Nat → Nat → KbdSystem → Prop
  | 0, _, _ => True
  | n + 1, i, s => Busy ((posts i).foldl KbdSystem.post s) ∧
      Flooded posts n (i + 1) ((posts i).foldl KbdSystem.post s).advance

/-! ## Events -/

theorem and_one_eq (w : Word) : w &&& 1#32 = if w.getLsbD 0 then 1#32 else 0#32 := by
  apply eq_of_getLsbD_eq
  intro i hi
  by_cases h : i = 0
  · subst h
    rw [getLsbD_and]
    cases w.getLsbD 0 <;> decide
  · have hone : (1#32).getLsbD i = false := by
      rw [getLsbD_one]
      simp [h]
    rw [getLsbD_and, hone, Bool.and_false]
    split
    · exact hone.symm
    · simp

/-- Comparing the last bit with a cycle state of 0 or 1. -/
theorem and_one_ne_iff {w c : Word} (hc : IsBit c) : w &&& 1#32 ≠ c ↔ w.getLsbD 0 ≠ c.getLsbD 0 := by
  rw [and_one_eq]
  rcases hc with rfl | rfl <;> cases w.getLsbD 0 <;> decide

theorem slot_stamped (ev : Trb) (cycle : Word) : (stamped ev cycle).slot = ev.slot := by
  unfold Trb.slot
  congr 1
  apply eq_of_getLsbD_eq
  intro i hi
  rw [getLsbD_ushiftRight, getLsbD_ushiftRight, stamped_bit ev cycle (by omega)]

theorem endpoint_stamped (ev : Trb) (cycle : Word) : (stamped ev cycle).endpoint = ev.endpoint := by
  unfold Trb.endpoint
  congr 1
  apply eq_of_getLsbD_eq
  intro i hi
  rw [getLsbD_and, getLsbD_and, getLsbD_ushiftRight,
    getLsbD_ushiftRight, stamped_bit ev cycle (by omega)]

theorem isReport_stamped (k : Kbd) (ev : Trb) (cycle : Word) :
    IsReport k (stamped ev cycle) ↔ IsReport k ev := by
  unfold IsReport
  rw [slot_stamped, endpoint_stamped]

theorem advanceEvent_next {x : Xhci} (hbit : IsBit x.eventCycle) :
    (advanceEvent x x.eventIdx).eventIdx =
        (CycleQueue.next 256 x.eventIdx (x.eventCycle.getLsbD 0)).1 ∧
      (advanceEvent x x.eventIdx).eventCycle.getLsbD 0 =
        (CycleQueue.next 256 x.eventIdx (x.eventCycle.getLsbD 0)).2 ∧
      IsBit (advanceEvent x x.eventIdx).eventCycle := by
  unfold advanceEvent CycleQueue.next
  by_cases hwrap : 256 ≤ x.eventIdx + 1
  · simp only [if_pos hwrap]
    exact ⟨trivial, bit_flip _, hbit.flip⟩
  · simp only [if_neg hwrap]
    exact ⟨trivial, trivial, hbit⟩

/-- The event ring holds the events of `q`: real events, the keyboard's among them with a
code that the poll accepts, and no other completion is on its way. -/
structure EventsOk (s : KbdSystem) (q : List Trb) : Prop where
  holds : CycleQueue.Holds Trb.cycle 256 s.mem s.kbd.host.eventIdx
    (s.kbd.host.eventCycle.getLsbD 0) s.enq s.pcs q
  bit : IsBit s.kbd.host.eventCycle
  typed : ∀ ev ∈ q, ev.type ≠ 0#32
  good : ∀ ev ∈ q, IsReport s.kbd ev → GoodCode ev
  count : q.countP (fun ev => IsReport s.kbd ev) + s.consumed = s.posted

/-- What the event ring does not touch: the keyboard's ring on both sides, and the number of
transfers that have been fetched. -/
structure SameRing (s s' : KbdSystem) : Prop where
  slotId : s'.kbd.slotId = s.kbd.slotId
  ep1Id : s'.kbd.ep1Id = s.kbd.ep1Id
  phys : s'.kbd.ep1TrPhys = s.kbd.ep1TrPhys
  tr : s'.kbd.ep1Tr = s.kbd.ep1Tr
  cycle : s'.kbd.ep1Cycle = s.kbd.ep1Cycle
  hc : s'.hc = s.hc
  fetched : s'.outstanding.length + s'.posted = s.outstanding.length + s.posted
  log : s'.log = s.log

theorem SameRing.refl (s : KbdSystem) : SameRing s s := ⟨rfl, rfl, rfl, rfl, rfl, rfl, rfl, rfl⟩

theorem SameRing.trans {s1 s2 s3 : KbdSystem} (h : SameRing s1 s2) (h' : SameRing s2 s3) :
    SameRing s1 s3 :=
  ⟨h'.slotId.trans h.slotId, h'.ep1Id.trans h.ep1Id, h'.phys.trans h.phys, h'.tr.trans h.tr,
    h'.cycle.trans h.cycle, h'.hc.trans h.hc, h'.fetched.trans h.fetched, h'.log.trans h.log⟩

theorem sameRing_advance (s : KbdSystem) : SameRing s s.advance :=
  ⟨rfl, rfl, rfl, rfl, rfl, rfl, rfl, rfl⟩

section Queue

variable {s : KbdSystem} {q : List Trb} {ev : Trb}

/-- One more event, written by the controller. -/
theorem EventsOk.holds_writeEvent (h : EventsOk s q)
    (hfull : (s.enq + 1) % 256 ≠ s.kbd.host.eventIdx) (ev : Trb) :
    CycleQueue.Holds Trb.cycle 256 (s.writeEvent ev).mem s.kbd.host.eventIdx
      (s.kbd.host.eventCycle.getLsbD 0) (s.writeEvent ev).enq (s.writeEvent ev).pcs
      (q ++ [stamped ev (if s.pcs then 1#32 else 0#32)]) := by
  have hroom : q.length + 1 < 256 := by
    have hlt := h.holds.room
    have hne : q.length + 1 ≠ 256 := fun heq => hfull (h.holds.full_iff.mpr heq)
    omega
  apply h.holds.post hroom
  rw [cycle_stamped]
  cases s.pcs <;> decide

theorem EventsOk.writeEvent {l : List (Nat × Trb)} {n : Nat} (h : EventsOk s q)
    (hnew : ¬(ev.type = 0#32 ∨ (s.enq + 1) % 256 = s.kbd.host.eventIdx))
    (hgood : IsReport s.kbd ev → GoodCode ev)
    (hn : n = if IsReport s.kbd ev then s.posted + 1 else s.posted) :
    EventsOk { s.writeEvent ev with outstanding := l, posted := n }
      (q ++ [stamped ev (if s.pcs then 1#32 else 0#32)]) := by
  obtain ⟨htype, hfull⟩ := not_or.mp hnew
  have hreport := isReport_stamped s.kbd ev (if s.pcs then 1#32 else 0#32)
  refine ⟨h.holds_writeEvent hfull ev, h.bit, ?_, ?_, ?_⟩
  · rw [forall_mem_append, forall_mem_singleton, type_stamped]
    exact ⟨h.typed, htype⟩
  · rw [forall_mem_append, forall_mem_singleton]
    exact ⟨h.good, fun hr => hgood (hreport.mp hr)⟩
  · have hcount := h.count
    rw [countP_append, countP_singleton]
    show countP (fun ev => decide (IsReport s.kbd ev)) q +
      (if decide (IsReport s.kbd (stamped ev _)) = true then 1 else 0) + s.consumed = n
    simp only [decide_eq_true_eq, hreport, hn]
    split <;> omega

theorem EventsOk.post (h : EventsOk s q) (ev : Trb) :
    ∃ q', EventsOk (s.post ev) q' ∧ SameRing s (s.post ev) ∧ (s.post ev).consumed = s.consumed := by
  unfold KbdSystem.post
  split_ifs with hskip hreport hnone
  · exact ⟨q, h, .refl s, rfl⟩
  · exact ⟨q, h, .refl s, rfl⟩
  · obtain ⟨hout, hcode⟩ := not_or.mp hnone
    refine ⟨_, h.writeEvent hskip (fun _ => not_not.mp hcode) (if_pos hreport).symm, ?_, rfl⟩
    have hlen : s.outstanding.tail.length + (s.posted + 1) = s.outstanding.length + s.posted := by
      cases hs : s.outstanding with
      | nil => exact absurd hs hout
      | cons a l =>
        rw [tail_cons, length_cons]
        omega
    exact ⟨rfl, rfl, rfl, rfl, rfl, rfl, hlen, rfl⟩
  · exact ⟨_, h.writeEvent hskip (fun hr => absurd hr hreport) (if_neg hreport).symm,
      ⟨rfl, rfl, rfl, rfl, rfl, rfl, rfl, rfl⟩, rfl⟩

theorem EventsOk.postAll (h : EventsOk s q) (evs : List Trb) :
    ∃ q', EventsOk (evs.foldl KbdSystem.post s) q' ∧ SameRing s (evs.foldl KbdSystem.post s) ∧
      (evs.foldl KbdSystem.post s).consumed = s.consumed := by
  induction evs generalizing s q with
  | nil => exact ⟨q, h, .refl s, rfl⟩
  | cons ev evs ih =>
    obtain ⟨q1, h1, hring1, hcons1⟩ := h.post ev
    obtain ⟨q', h', hring', hcons'⟩ := ih h1
    exact ⟨q', h', hring1.trans hring', hcons'.trans hcons1⟩

/-- The driver has read the event at the head of the queue. -/
theorem EventsOk.advance (h : EventsOk s (ev :: q)) : EventsOk s.advance q ∧
    s.advance.consumed = if IsReport s.kbd ev then s.consumed + 1 else s.consumed := by
  obtain ⟨hmem, -⟩ := h.holds.head_cons
  obtain ⟨hidx, hcycle, hbit⟩ := advanceEvent_next h.bit
  have hcons : s.advance.consumed = if IsReport s.kbd ev then s.consumed + 1 else s.consumed := by
    unfold KbdSystem.advance
    rw [hmem]
  refine ⟨⟨?_, hbit, ?_, ?_, ?_⟩, hcons⟩
  · have htail := h.holds.tail
    rw [← hidx, ← hcycle] at htail
    exact htail
  · intro e he
    exact h.typed e (mem_cons_of_mem ev he)
  · intro e he hr
    exact h.good e (mem_cons_of_mem ev he) hr
  · have hcount := h.count
    rw [countP_cons] at hcount
    rw [hcons]
    show q.countP (fun ev => decide (IsReport s.kbd ev)) + _ = s.posted
    by_cases hr : IsReport s.kbd ev
    · rw [if_pos (decide_eq_true hr)] at hcount
      rw [if_pos hr]
      omega
    · rw [if_neg (by simpa using hr)] at hcount
      rw [if_neg hr]
      omega

end Queue

/-! ## The loop -/

variable {s s' : KbdSystem} {posts : Nat → List Trb}

/-- What the driver finds at its index: nothing valid, or the head of the queue. -/
theorem EventsOk.head {q : List Trb} (h : EventsOk s q) :
    (q = [] ∧ (s.mem s.kbd.host.eventIdx).dw3 &&& 1#32 ≠ s.kbd.host.eventCycle) ∨
    (∃ q', q = s.mem s.kbd.host.eventIdx :: q' ∧ (s.mem s.kbd.host.eventIdx).type ≠ 0#32 ∧
      ¬ ((s.mem s.kbd.host.eventIdx).dw3 &&& 1#32 ≠ s.kbd.host.eventCycle)) := by
  cases q with
  | nil => exact .inl ⟨rfl, (and_one_ne_iff h.bit).mpr h.holds.head_none⟩
  | cons ev q =>
    obtain ⟨hmem, hcycle⟩ := h.holds.head_cons
    refine .inr ⟨q, by rw [hmem], ?_, ?_⟩
    · rw [hmem]
      exact h.typed ev mem_cons_self
    · rw [and_one_ne_iff h.bit, hmem]
      exact not_not.mpr hcycle

/-- The loop ends at a slot that holds no event. -/
theorem pollLoop_empty {i : Nat} {t : KbdSystem} (ht : (posts i).foldl KbdSystem.post s = t)
    (hcycle : (t.mem t.kbd.host.eventIdx).dw3 &&& 1#32 ≠ t.kbd.host.eventCycle) (n : Nat) :
    pollLoop posts (n + 1) i s = (false, t) := by
  rw [pollLoop, ht]
  by_cases h0 : (t.mem t.kbd.host.eventIdx).type = 0#32
  · rw [if_pos h0]
  · rw [if_neg h0, if_pos hcycle]

/-- How the loop ends: it consumes a completion of the keyboard, or none, and goes on without
one only if the controller had an event of another slot ready in every round. -/
theorem pollLoop_spec (posts : Nat → List Trb) (n i : Nat) {q : List Trb} (h : EventsOk s q) :
    ∃ q', EventsOk (pollLoop posts n i s).2 q' ∧ SameRing s (pollLoop posts n i s).2 ∧
      ((pollLoop posts n i s).1 = false → ¬ Flooded posts n i s ∧
        (pollLoop posts n i s).2.consumed = s.consumed) ∧
      ((pollLoop posts n i s).1 = true →
        (¬ Flooded posts n i s ∧ (pollLoop posts n i s).2.consumed = s.consumed + 1) ∨
        (Flooded posts n i s ∧ (pollLoop posts n i s).2.consumed = s.consumed)) := by
  induction n generalizing i s q with
  | zero =>
    refine ⟨q, h, .refl s, ?_, ?_⟩
    · intro hexit
      cases hexit
    · intro _
      exact .inr ⟨trivial, rfl⟩
  | succ n ih =>
    obtain ⟨q1, h₁, hring1, hcons1⟩ := h.postAll (posts i)
    rw [Flooded]
    generalize ht : (posts i).foldl KbdSystem.post s = t at h₁ hring1 hcons1 ⊢
    rcases h₁.head with ⟨rfl, hcycle⟩ | ⟨q2, rfl, htype, hcycle⟩
    · have hidle : ¬ Busy t := fun hb => hb.1 (h₁.holds.enq_eq_idx.mpr rfl)
      rw [pollLoop_empty ht hcycle]
      refine ⟨[], h₁, hring1, ?_, ?_⟩
      · intro _
        exact ⟨fun hf => hidle hf.1, hcons1⟩
      · intro hexit
        cases hexit
    · rw [pollLoop, ht, if_neg htype, if_neg hcycle]
      have hne : t.enq ≠ t.kbd.host.eventIdx := fun heq => by
        cases h₁.holds.enq_eq_idx.mp heq
      obtain ⟨h2, hcons2⟩ := h₁.advance
      have hring2 := hring1.trans (sameRing_advance t)
      by_cases hslot : (t.mem t.kbd.host.eventIdx).slot ≠ t.kbd.slotId
      · -- an event of another slot
        rw [if_pos hslot]
        have hother : ¬ IsReport t.kbd (t.mem t.kbd.host.eventIdx) := fun hr => hslot hr.1
        rw [if_neg hother, hcons1] at hcons2
        obtain ⟨q', h', hring', hfalse, htrue⟩ := ih (i + 1) h2
        rw [hcons2] at hfalse htrue
        refine ⟨q', h', hring2.trans hring', ?_, ?_⟩
        · intro hexit
          obtain ⟨hf, hc⟩ := hfalse hexit
          exact ⟨fun hf' => hf hf'.2, hc⟩
        · intro hexit
          rcases htrue hexit with ⟨hf, hc⟩ | ⟨hf, hc⟩
          · exact .inl ⟨fun hf' => hf hf'.2, hc⟩
          · exact .inr ⟨⟨⟨hne, hslot⟩, hf⟩, hc⟩
      · rw [if_neg hslot]
        have hcalm : ¬ Busy t := fun hb => hslot hb.2
        by_cases hep : (t.mem t.kbd.host.eventIdx).endpoint = t.kbd.ep1Id
        · have hreport : IsReport t.kbd (t.mem t.kbd.host.eventIdx) := ⟨not_not.mp hslot, hep⟩
          have hgood := h₁.good _ mem_cons_self hreport
          rw [if_pos hreport, hcons1] at hcons2
          rw [if_neg (by
            rintro (hep' | ⟨h1, h13, h6⟩)
            · exact hep' hep
            · rcases hgood with hg | hg | hg
              · exact h1 hg
              · exact h13 hg
              · exact h6 hg)]
          refine ⟨q2, h2, hring2, ?_, ?_⟩
          · intro hexit
            cases hexit
          · intro _
            exact .inl ⟨fun hf => hcalm hf.1, hcons2⟩
        · have hother : ¬ IsReport t.kbd (t.mem t.kbd.host.eventIdx) := fun hr => hep hr.2
          rw [if_neg hother, hcons1] at hcons2
          rw [if_pos (.inl hep)]
          refine ⟨q2, h2, hring2, ?_, ?_⟩
          · intro _
            exact ⟨fun hf => hcalm hf.1, hcons2⟩
          · intro hexit
            cases hexit

/-! ## The ring -/

/-- The keyboard's ring is armed: the controller has fetched the block and stands at the
Link block. -/
structure RingOk (s : KbdSystem) : Prop where
  bit : IsBit s.kbd.ep1Cycle
  ring : InStep (controller s.kbd.ep1TrPhys.addr) 1
    (producer s.kbd.ep1Tr 1 (s.kbd.ep1Cycle.getLsbD 0)) s.hc

theorem RingOk.of_same (h : RingOk s) (hsame : SameRing s s') : RingOk s' := by
  refine ⟨?_, ?_⟩
  · rw [hsame.cycle]
    exact h.bit
  · rw [hsame.phys, hsame.tr, hsame.cycle, hsame.hc]
    exact h.ring

theorem reportTrb_work (k : Kbd) {cycle : Word} (h : IsBit cycle) (base : BitVec 64) :
    (controller base).cycle (reportTrb k cycle) = cycle.getLsbD 0 ∧
      (controller base).link (reportTrb k cycle) = none := by
  have hkind : ((1#32 <<< 10) ||| (1#32 <<< 5) ||| cycle).getLsbD 0 = cycle.getLsbD 0 ∧
      (((1#32 <<< 10) ||| (1#32 <<< 5) ||| cycle) >>> 10) &&& 0x3F#32 ≠ linkType := by
    rcases h with rfl | rfl
    · decide
    · decide
  have hlink : (reportTrb k cycle).type ≠ linkType := hkind.2
  refine ⟨hkind.1, ?_⟩
  simp only [controller, if_neg hlink]

/-- Re-arming makes the controller fetch the block, once. -/
theorem RingOk.rearm (h : RingOk s) :
    ∃ t hc', doorbell s.kbd.ep1TrPhys.addr (rearm s.kbd).ep1Tr s.hc = some ([(0, t)], hc') ∧
      IsBit (rearm s.kbd).ep1Cycle ∧
      InStep (controller s.kbd.ep1TrPhys.addr) 1
        (producer (rearm s.kbd).ep1Tr 1 ((rearm s.kbd).ep1Cycle.getLsbD 0)) hc' := by
  have hbit : IsBit (s.kbd.ep1Cycle ^^^ 1#32) := h.bit.flip
  have hwrap := wraps_flipLink s.kbd.ep1TrPhys.addr s.kbd.ep1Tr 1 1 (s.kbd.ep1Cycle.getLsbD 0)
  rw [← bit_flip] at hwrap
  obtain ⟨hc', hdrain, hstep⟩ := h.ring.wrap_put rfl hwrap
    (puts_writeAll (s.kbd.ep1Tr.flipLink 1) 1 0 ((s.kbd.ep1Cycle ^^^ 1#32).getLsbD 0)
      [reportTrb (Usb.rearm s.kbd) (s.kbd.ep1Cycle ^^^ 1#32)])
    (fun e he => by
      rw [mem_singleton.mp he]
      exact reportTrb_work _ hbit _)
    (by rw [length_singleton])
  exact ⟨_, hc', doorbell_of_drain hdrain (by rw [length_singleton]; decide), hbit, hstep⟩

/-- The state between two polls: everything that was fetched is outstanding, waits as an
event, or has been consumed, and there is one more fetch than there are reports consumed. -/
structure KbdOk (s : KbdSystem) : Prop where
  events : ∃ q, EventsOk s q
  ring : RingOk s
  balance : s.outstanding.length + s.posted = s.consumed + 1

theorem KbdOk.consumed_le (h : KbdOk s) : s.consumed ≤ s.posted := by
  obtain ⟨q, hq⟩ := h.events
  have hcount := hq.count
  omega

/-- A poll keeps both rings in order. It returns 1 exactly if it arms the endpoint again,
after a completion or when it was flooded. -/
theorem usbKbdPoll_spec (posts : Nat → List Trb) (h : KbdOk s) :
    ∃ s' p, usbKbdPoll s posts = some s' ∧ (∃ q, EventsOk s' q) ∧ RingOk s' ∧
      s'.log = s.log ++ [p] ∧ p.consumed = s'.consumed - s.consumed ∧
      s'.outstanding.length + s'.posted = s.consumed + 1 + p.fetched.length ∧
      ((p.result = false ∧ p.fetched = [] ∧ ¬ Flooded posts 256 0 s ∧ s'.consumed = s.consumed) ∨
        (p.result = true ∧ p.fetched.length = 1 ∧
          ((¬ Flooded posts 256 0 s ∧ s'.consumed = s.consumed + 1) ∨
            (Flooded posts 256 0 s ∧ s'.consumed = s.consumed)))) := by
  obtain ⟨q, hq⟩ := h.events
  obtain ⟨q', hq', hsame, hfalse, htrue⟩ := pollLoop_spec posts 256 0 hq
  unfold usbKbdPoll
  rcases hloop : pollLoop posts 256 0 s with ⟨exit, t⟩
  rw [hloop] at hq' hsame hfalse htrue
  dsimp only at hq' hsame hfalse htrue
  have hring := h.ring.of_same hsame
  have hbalance := hsame.fetched.trans h.balance
  cases exit with
  | false =>
    exact ⟨_, _, rfl, ⟨q', hq'.holds, hq'.bit, hq'.typed, hq'.good, hq'.count⟩,
      ⟨hring.bit, hring.ring⟩, rfl, rfl, hbalance, .inl ⟨rfl, rfl, hfalse rfl⟩⟩
  | true =>
    obtain ⟨b, hc', hbell, hbit, hstep⟩ := hring.rearm
    have hphys : (Usb.rearm t.kbd).ep1TrPhys = t.kbd.ep1TrPhys := rfl
    dsimp only
    rw [hphys, hbell, map_some]
    refine ⟨_, _, rfl, ⟨q', hq'.holds, hq'.bit, hq'.typed, hq'.good, hq'.count⟩, ⟨hbit, hstep⟩,
      rfl, rfl, ?_, .inr ⟨rfl, rfl, htrue rfl⟩⟩
    dsimp only
    rw [length_append, length_singleton]
    omega

/-- A poll that is not flooded does what it should. -/
theorem usbKbdPoll_calm (h : KbdOk s) (hcalm : ¬ Flooded posts 256 0 s) :
    ∃ s' p, usbKbdPoll s posts = some s' ∧ KbdOk s' ∧ s'.log = s.log ++ [p] ∧ p.Exact := by
  obtain ⟨s', p, hs', hevents, hring, hlog, hconsumed, hbalance, hcases⟩ := usbKbdPoll_spec posts h
  rcases hcases with ⟨hresult, hnone, -, hcons⟩ | ⟨hresult, hone, hcons⟩
  · rw [hnone, length_nil] at hbalance
    refine ⟨s', p, hs', ⟨hevents, hring, by omega⟩, hlog, ?_, fun _ => ⟨by omega, hnone⟩⟩
    simp [hresult]
  · obtain ⟨-, hcons⟩ := hcons.resolve_right fun hf => hcalm hf.1
    refine ⟨s', p, hs', ⟨hevents, hring, by omega⟩, hlog, fun _ => ⟨by omega, hone⟩, ?_⟩
    simp [hresult]

/-- A flooded poll returns 1 without a report. -/
theorem usbKbdPoll_flooded (h : KbdOk s) (hflood : Flooded posts 256 0 s) :
    ∃ s' p, usbKbdPoll s posts = some s' ∧ s'.log = s.log ++ [p] ∧ ¬ p.Exact := by
  obtain ⟨s', p, hs', -, -, hlog, hconsumed, -, hcases⟩ := usbKbdPoll_spec posts h
  obtain ⟨hresult, -, hcons⟩ := hcases.resolve_left fun hf => hf.2.2.1 hflood
  obtain ⟨-, hcons⟩ := hcons.resolve_left fun hf => hf.1 hflood
  refine ⟨s', p, hs', hlog, fun hexact => ?_⟩
  have := (hexact.1 hresult).1
  omega

/-! ## Sequences of polls -/

/-- Every poll so far did what it should. -/
def KbdSystem.Clean (s : KbdSystem) : Prop := ∀ p ∈ s.log, p.Exact

instance decidableFlooded (posts : Nat → List Trb) :
    (n i : Nat) → (s : KbdSystem) → Decidable (Flooded posts n i s)
  | 0, _, _ => isTrue trivial
  | n + 1, i, s =>
    have := decidableFlooded posts n (i + 1) ((posts i).foldl KbdSystem.post s).advance
    inferInstanceAs (Decidable ((_ ∧ _) ∧ _))

/-- The driver is not kept busy for a whole poll. -/
def Calm (s : KbdSystem) (posts : Nat → List Trb) : Prop := ¬ Flooded posts 256 0 s

instance (s : KbdSystem) (posts : Nat → List Trb) : Decidable (Calm s posts) :=
  inferInstanceAs (Decidable (¬ _))

theorem usbKbdPoll_log (h : usbKbdPoll s posts = some s') : ∃ p, s'.log = s.log ++ [p] := by
  unfold usbKbdPoll at h
  generalize pollLoop posts 256 0 s = r at h
  obtain ⟨exit, t⟩ := r
  cases exit with
  | false =>
    obtain rfl := some.inj h
    exact ⟨_, rfl⟩
  | true =>
    obtain ⟨r, -, rfl⟩ := map_eq_some_iff.mp h
    exact ⟨_, rfl⟩

theorem kbd_clean_append {p : Polled} (h : s'.log = s.log ++ [p]) :
    s'.Clean ↔ s.Clean ∧ p.Exact := by
  unfold KbdSystem.Clean
  rw [h, forall_mem_append, forall_mem_singleton]

/-- The event ring before the keyboard is configured: a queue of real events, none of them
of the keyboard's endpoint. -/
def EventsReady (s : KbdSystem) : Prop :=
  IsBit s.kbd.host.eventCycle ∧ ∃ q, CycleQueue.Holds Trb.cycle 256 s.mem s.kbd.host.eventIdx
    (s.kbd.host.eventCycle.getLsbD 0) s.enq s.pcs q ∧ ∀ ev ∈ q, ev.type ≠ 0#32 ∧ ¬ IsReport s.kbd ev

/-- The block of the first report, written before the Link block. -/
theorem puts_report (k : Kbd) :
    Puts 1 (producer (Page.zero.write (4 * 1) (linkTrb k.ep1TrPhys.addr)) 0 true)
      [reportTrb k 1#32]
      (producer ((Page.zero.write (4 * 0) (reportTrb k 1#32)).write (4 * 1)
        (linkTrb k.ep1TrPhys.addr)) 1 true) where
  stands := by
    refine ⟨?_, trivial⟩
    show ((Page.zero.write (4 * 0) _).write (4 * 1) _).trb 0 = _
    rw [Page.trb_write, if_neg (by decide), Page.trb_write, if_pos rfl]
  other i hi hside := by
    have hi1 : i = 1 := by
      rcases hside with hlt | hge
      · exact absurd hlt (Nat.not_lt_zero i)
      · exact le_antisymm hi hge
    subst hi1
    simp only [producer, Page.trb_write, if_true]
  enq := rfl
  state := rfl

theorem configureHid_ok {s0 : KbdSystem} (h : EventsReady s0) :
    ∃ s, configureHid s0 = some s ∧ KbdOk s ∧ s.log = [] := by
  obtain ⟨hbit, q, hholds, hq⟩ := h
  have hone : IsBit 1#32 := .inr rfl
  have hputs := puts_report s0.kbd
  obtain ⟨hc, hdrain, hstep⟩ := (inStep_fresh s0.kbd.ep1TrPhys 1).put hputs
    (fun e he => by
      rw [mem_singleton.mp he]
      exact reportTrb_work s0.kbd hone _)
    (by rw [length_singleton]; exact le_rfl)
  have hbell := doorbell_of_drain hdrain (by rw [length_singleton]; decide)
  have hring : InStep (controller s0.kbd.ep1TrPhys.addr) 1
      (producer ((Page.zero.write (4 * 0) (reportTrb s0.kbd 1#32)).write (4 * 1)
        (linkTrb s0.kbd.ep1TrPhys.addr)) 1 ((1#32).getLsbD 0)) hc := by
    have hstate : (1#32).getLsbD 0 = true := by decide
    rw [hstate]
    exact hstep
  refine ⟨_, congrArg (Option.map _) hbell, ⟨⟨q, hholds, hbit, ?_, ?_, ?_⟩, ⟨hone, hring⟩, rfl⟩,
    rfl⟩
  · intro ev hev
    exact (hq ev hev).1
  · intro ev hev hr
    exact absurd hr (hq ev hev).2
  · have hnone : q.countP (fun ev => decide (IsReport s0.kbd ev)) = 0 := by
      rw [countP_eq_zero]
      intro ev hev
      simpa using (hq ev hev).2
    exact congrArg (· + 0) hnone

/-- From the state that `xhci_configure_hid` leaves, for every sequence of polls and every
behaviour of the controller between and during them. If no poll is kept busy with events of
other slots for all its 256 rounds, then each poll that returns 1 has consumed one completion
of the keyboard and re-armed the ring once, any other poll has done neither, and everything
posted and not yet consumed together with what is outstanding is one transfer. Conversely,
polls that all behave in this way were not kept busy. -/
theorem keyboard_ring_protocol (s₀ : KbdSystem) (h : EventsReady s₀) :
    ∃ s, configureHid s₀ = some s ∧ ∀ polls : List (Nat → List Trb),
      (Run.Along usbKbdPoll Calm s polls →
        ∃ s', Run.run usbKbdPoll s polls = some s' ∧ s'.log.length = polls.length ∧
          (∀ p ∈ s'.log, p.Exact) ∧ s'.consumed ≤ s'.posted ∧
          s'.outstanding.length + s'.posted = s'.consumed + 1) ∧
      (∀ s', Run.run usbKbdPoll s polls = some s' → (∀ p ∈ s'.log, p.Exact) →
        Run.Along usbKbdPoll Calm s polls) := by
  obtain ⟨s, hs, hok, hlog⟩ := configureHid_ok h
  have hclean : s.Clean := by
    intro p hp
    rw [hlog] at hp
    exact absurd hp not_mem_nil
  refine ⟨s, hs, fun polls => ⟨?_, ?_⟩⟩
  · intro hcalm
    obtain ⟨s', hrun, hok', hclean', hlen⟩ :=
      Run.run_clean usbKbdPoll kbd_clean_append usbKbdPoll_calm hok hclean hcalm
    rw [hlog, length_nil, Nat.zero_add] at hlen
    exact ⟨s', hrun, hlen, hclean', hok'.consumed_le, hok'.balance⟩
  · intro s' hrun hclean'
    exact Run.along_of_clean usbKbdPoll kbd_clean_append usbKbdPoll_log usbKbdPoll_calm
      (fun h hbusy => usbKbdPoll_flooded h (not_not.mp hbusy)) hok hrun hclean'

/-! ## A keyboard in slot 1

Endpoint 3 of the device in slot 1, with an empty event ring. -/

def bareKbd : KbdSystem where
  kbd :=
    { host := setupAndRun lowPage
      slotId := 1#8
      ep1Id := 3#8
      ep1TrPhys := lowPage
      ep1Tr := Page.zero
      ep1Cycle := 1#32
      ep1DataPhys := 0x2000#64
      ep1Maxpkt := 8#16 }
  mem := fun _ => ⟨0#32, 0#32, 0#32, 0#32⟩
  enq := 0
  pcs := true
  hc := ⟨0, true⟩
  outstanding := []
  posted := 0
  consumed := 0
  log := []

theorem eventsReady_bareKbd : EventsReady bareKbd := by
  refine ⟨.inr rfl, [], ⟨by decide, by decide, rfl, by decide, ?_, ?_⟩, ?_⟩
  · intro k e hk
    cases hk
  · intro k _ hk
    have hlap : CycleQueue.lap 256 0 true k = true := if_pos (by omega)
    change (0#32).getLsbD 0 ≠ CycleQueue.lap 256 0 true k
    rw [hlap]
    decide
  · intro ev hev
    cases hev

/-- A port status change, which belongs to no slot. -/
def portEvent : Trb := ⟨0#32, 0#32, 1#32 <<< 24, 34#32 <<< 10⟩

/-- A port event before each round of a poll, and no key report: the poll returns 1, has
consumed no completion, and leaves one transfer too many. -/
theorem poll_without_report : ∃ s s' p, configureHid bareKbd = some s ∧
    usbKbdPoll s (fun _ => [portEvent]) = some s' ∧ s'.log = s.log ++ [p] ∧ p.result = true ∧
      p.consumed = 0 ∧ s'.outstanding.length + s'.posted = s'.consumed + 2 := by
  have hpoll : ((configureHid bareKbd).bind fun s =>
      (usbKbdPoll s fun _ => [portEvent]).map fun s' =>
        (s.log, s'.log, s'.outstanding.length + s'.posted, s'.consumed)) =
      some ([], [⟨true, 0, [(0, reportTrb bareKbd.kbd 0#32)]⟩], 2, 0) := by
    decide +kernel
  obtain ⟨s, hs, hmap⟩ := bind_eq_some_iff.mp hpoll
  obtain ⟨s', hs', hend⟩ := map_eq_some_iff.mp hmap
  simp only [Prod.mk.injEq] at hend
  obtain ⟨hlog, hlog', htransfers, hconsumed⟩ := hend
  refine ⟨s, s', ⟨true, 0, [(0, reportTrb bareKbd.kbd 0#32)]⟩, hs, hs', ?_, rfl, rfl, ?_⟩
  · rw [hlog, hlog', nil_append]
  · rw [htransfers, hconsumed]

/-- A port event and then the report of a key, before the first round of a poll. -/
def keyPress (i : Nat) : List Trb :=
  if i = 0 then [portEvent,
    ⟨0#32, 0#32, 1#32 <<< 24, (1#32 <<< 24) ||| (3#32 <<< 16) ||| (32#32 <<< 10)⟩]
  else []

/-- Two polls in which a key is pressed, and one between them in which the keyboard is silent. -/
theorem keyboard_ring_protocol_keys : ∃ s s', configureHid bareKbd = some s ∧
    Run.run usbKbdPoll s [keyPress, fun _ => [], keyPress] = some s' ∧ s'.consumed = 2 ∧
      s'.log.map (·.result) = [true, false, true] ∧
      s'.outstanding.length + s'.posted = s'.consumed + 1 := by
  obtain ⟨s, hs, hpolls⟩ := keyboard_ring_protocol bareKbd eventsReady_bareKbd
  have hcalm : (configureHid bareKbd).all fun s =>
      Run.Along usbKbdPoll Calm s [keyPress, fun _ => [], keyPress] := by decide +kernel
  have hkeys : ((configureHid bareKbd).bind fun s =>
      Run.run usbKbdPoll s [keyPress, fun _ => [], keyPress]).map
        (fun s' => (s'.consumed, s'.log.map (·.result))) = some (2, [true, false, true]) := by
    decide +kernel
  rw [hs] at hcalm hkeys
  obtain ⟨s', hrun, -, -, -, hbalance⟩ := (hpolls _).1 (of_decide_eq_true hcalm)
  rw [bind_some, hrun, map_some, some.injEq, Prod.mk.injEq] at hkeys
  exact ⟨s, s', hs, hrun, hkeys.1, hkeys.2, hbalance⟩

end Crius.Usb
