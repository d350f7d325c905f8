import Crius.Lib.Run
import Crius.Usb.Trb

/-!
# The command ring

`xhci_send_command` against a controller that follows the xHCI rules. The driver writes a
block, rings the doorbell and polls the event ring for the completion of that block. The
controller, woken by the doorbell, fetches until it meets a block with the other cycle bit.

The event ring is memory that the controller writes at any time. A poll is given what the
driver finds there in each round, so what is proved about a poll holds for every content.
-/
namespace Crius.Usb

open Lib CycleRing BitVec List

/-- The driver's variables for the two rings. -/
structure Xhci where
  cmdPhys : PhysPage
  cmdRing : Page
  cmdEnq : Nat
  cmdCycle : Word
  eventIdx : Nat
  eventCycle : Word

/-- The rings as `xhci_setup_and_run` leaves them. -/
def setupAndRun (cmdPhys : PhysPage) : Xhci where
  cmdPhys := cmdPhys
  cmdRing := Page.zero.write 1020 (linkTrb cmdPhys.addr)
  cmdEnq := 0
  cmdCycle := 1#32
  eventIdx := 0
  eventCycle := 1#32

/-- What `xhci_setup_and_run` writes to the command ring control register. -/
def crcr (cmdPhys : BitVec 64) : BitVec 64 := (cmdPhys &&& ~~~0x3F#64) ||| 1#64

/-- The event blocks that the driver finds in each round of a poll. -/
abbrev EventView := Nat → Nat → Trb

def advanceEvent (x : Xhci) (e : Nat) : Xhci :=
  if 256 ≤ e + 1 then { x with eventIdx := 0, eventCycle := x.eventCycle ^^^ 1#32 }
  else { x with eventIdx := e + 1 }

/-- The type number of a command completion event. -/
def completionType : Word := 33#32

/-- The loop that waits for the completion event of the block at `myTrb`. The first
component is the event that it accepts. -/
def awaitCompletion (myTrb : BitVec 64) (view : EventView) : Nat → Nat → Xhci → Option Trb × Xhci
  | 0, _, x => (none, x)
  | n + 1, i, x =>
    let e := x.eventIdx
    let ev := view i e
    if ev.type = 0#32 then awaitCompletion myTrb view n (i + 1) x
    else if ev.dw3 &&& 1#32 ≠ x.eventCycle then awaitCompletion myTrb view n (i + 1) x
    else if ev.type = completionType then
      -- a completion of another block is consumed and the wait goes on
      if ev.pointer ≠ myTrb then awaitCompletion myTrb view n (i + 1) (advanceEvent x e)
      else (some ev, advanceEvent x e)
    else awaitCompletion myTrb view n (i + 1) (advanceEvent x e)

/-- The part of `xhci_send_command` that comes before the doorbell. The first component is
the address of the block. -/
def enqueueCommand (x : Xhci) (word : Trb) : BitVec 64 × Xhci :=
  let x := if 255 ≤ x.cmdEnq then
      { x with cmdRing := x.cmdRing.flipLink 255, cmdCycle := x.cmdCycle ^^^ 1#32, cmdEnq := 0 }
    else x
  (x.cmdPhys.addr + BitVec.ofNat 64 (x.cmdEnq * 16),
    { x with
      cmdRing := x.cmdRing.write (4 * x.cmdEnq)
        { word with dw3 := (word.dw3 &&& ~~~1#32) ||| (x.cmdCycle &&& 1#32) }
      cmdEnq := x.cmdEnq + 1 })

/-- One call of `xhci_send_command`, seen from both sides. -/
structure Exchange where
  word : Trb
  myTrb : BitVec 64
  fetched : List (Nat × Trb)
  accepted : Option Trb

/-- The driver, the controller's side of the command ring, and the calls so far. -/
structure CommandSession where
  driver : Xhci
  hc : Cursor
  log : List Exchange

/-- The command ring after `xhci_setup_and_run` has loaded the control register. -/
def CommandSession.start (cmdPhys : PhysPage) : CommandSession where
  driver := setupAndRun cmdPhys
  hc := loadCursor cmdPhys.addr (crcr cmdPhys.addr)
  log := []

/-- `xhci_send_command`, with the controller fetching when the doorbell rings. -/
def sendCommand (s : CommandSession) (call : Trb × EventView) : Option CommandSession :=
  let (myTrb, x) := enqueueCommand s.driver call.1
  (doorbell x.cmdPhys.addr x.cmdRing s.hc).map fun r =>
    let (accepted, x) := awaitCompletion myTrb call.2 10000000 0 x
    ⟨x, r.2, s.log ++ [⟨call.1, myTrb, r.1, accepted⟩]⟩

/-! ## The poll -/

/-- The two states agree on the command ring. -/
structure SameCmd (x x' : Xhci) : Prop where
  phys : x'.cmdPhys = x.cmdPhys
  ring : x'.cmdRing = x.cmdRing
  enq : x'.cmdEnq = x.cmdEnq
  cycle : x'.cmdCycle = x.cmdCycle

theorem SameCmd.refl (x : Xhci) : SameCmd x x := ⟨rfl, rfl, rfl, rfl⟩

theorem SameCmd.trans {x y z : Xhci} (h : SameCmd x y) (h' : SameCmd y z) : SameCmd x z :=
  ⟨h'.phys.trans h.phys, h'.ring.trans h.ring, h'.enq.trans h.enq, h'.cycle.trans h.cycle⟩

theorem sameCmd_advanceEvent (x : Xhci) (e : Nat) : SameCmd x (advanceEvent x e) := by
  unfold advanceEvent
  split
  · exact ⟨rfl, rfl, rfl, rfl⟩
  · exact ⟨rfl, rfl, rfl, rfl⟩

/-- Whatever the event ring holds: the poll leaves the command ring alone, and an event
that it accepts is a completion of the block it waits for. -/
theorem awaitCompletion_spec (myTrb : BitVec 64) (view : EventView) (n i : Nat) (x : Xhci) :
    SameCmd x (awaitCompletion myTrb view n i x).2 ∧
      ∀ ev, (awaitCompletion myTrb view n i x).1 = some ev →
        ev.type = completionType ∧ ev.pointer = myTrb := by
  induction n generalizing i x with
  | zero => exact ⟨.refl x, fun ev hev => by cases hev⟩
  | succ n ih =>
    have hskip : SameCmd x
        (awaitCompletion myTrb view n (i + 1) (advanceEvent x x.eventIdx)).2 ∧
        ∀ ev, (awaitCompletion myTrb view n (i + 1) (advanceEvent x x.eventIdx)).1 = some ev →
          ev.type = completionType ∧ ev.pointer = myTrb := by
      obtain ⟨hsame, hacc⟩ := ih (i + 1) (advanceEvent x x.eventIdx)
      exact ⟨(sameCmd_advanceEvent x _).trans hsame, hacc⟩
    rw [awaitCompletion]
    split_ifs with h1 h2 h3 h4
    · exact ih (i + 1) x
    · exact ih (i + 1) x
    · exact hskip
    · refine ⟨sameCmd_advanceEvent x _, ?_⟩
      intro ev hev
      cases hev
      exact ⟨h3, not_not.mp h4⟩
    · exact hskip

/-! ## The ring -/

/-- The block that is written for a command when the cycle state is `cycle`. -/
def stamped (word : Trb) (cycle : Word) : Trb :=
  { word with dw3 := (word.dw3 &&& ~~~1#32) ||| (cycle &&& 1#32) }

section

variable (word : Trb) (cycle : Word)

theorem cycle_stamped : (stamped word cycle).cycle = cycle.getLsbD 0 := by
  simp [stamped, Trb.cycle]

/-- Only bit 0 of the last word is stamped. -/
theorem stamped_bit {i : Nat} (hi : 0 < i) :
    (stamped word cycle).dw3.getLsbD i = word.dw3.getLsbD i := by
  have hone : (1#32).getLsbD i = false := by
    rw [getLsbD_one]
    simp
    omega
  unfold stamped
  by_cases hlt : i < 32
  · rw [getLsbD_or, getLsbD_and, getLsbD_and, getLsbD_not, hone]
    simp [hlt]
  · rw [getLsbD_of_ge _ _ (not_lt.mp hlt), getLsbD_of_ge _ _ (not_lt.mp hlt)]

theorem type_stamped : (stamped word cycle).type = word.type := by
  unfold Trb.type
  apply eq_of_getLsbD_eq
  intro i hi
  rw [getLsbD_and, getLsbD_and, getLsbD_ushiftRight,
    getLsbD_ushiftRight, stamped_bit word cycle (by omega)]

theorem content_stamped : (stamped word cycle).content = word.content := by
  have hdw3 : (stamped word cycle).dw3 &&& ~~~1#32 = word.dw3 &&& ~~~1#32 := by
    apply eq_of_getLsbD_eq
    intro i hi
    rw [getLsbD_and, getLsbD_and]
    by_cases h0 : i = 0
    · have hmask : (~~~1#32).getLsbD i = false := by
        rw [h0]
        decide
      rw [hmask, Bool.and_false, Bool.and_false]
    · rw [stamped_bit word cycle (Nat.pos_of_ne_zero h0)]
  unfold Trb.content
  rw [hdw3]
  rfl

end

theorem link_stamped {word : Trb} (h : word.type ≠ linkType) (base : BitVec 64) (cycle : Word) :
    (controller base).link (stamped word cycle) = none := by
  simp only [controller, type_stamped, if_neg h]

/-- The driver's and the controller's side of the command ring are in step. -/
def CmdInStep (x : Xhci) (hc : Cursor) : Prop :=
  InStep (controller x.cmdPhys.addr) 255 (producer x.cmdRing x.cmdEnq (x.cmdCycle.getLsbD 0)) hc

theorem cmdInStep_start (cmdPhys : PhysPage) :
    CmdInStep (setupAndRun cmdPhys) (loadCursor cmdPhys.addr (crcr cmdPhys.addr)) := by
  have hload : loadCursor cmdPhys.addr (crcr cmdPhys.addr) =
      loadCursor cmdPhys.addr (cmdPhys.addr ||| 1#64) := by
    have hcrcr : crcr cmdPhys.addr = cmdPhys.addr ||| 1#64 := by
      unfold crcr
      congr 1
      apply eq_of_getLsbD_eq
      intro i hi
      by_cases hlow : i < 6
      · rw [cmdPhys.low_bit (by omega), getLsbD_and, cmdPhys.low_bit (by omega),
          Bool.false_and]
      · have hones : ∀ j < 64, 6 ≤ j → (~~~0x3F#64).getLsbD j = true := by decide
        rw [getLsbD_and, hones i hi (by omega), Bool.and_true]
    rw [hcrcr]
  have hbit : (1#32).getLsbD 0 = true := by decide
  unfold CmdInStep setupAndRun
  rw [hload, hbit]
  exact inStep_fresh cmdPhys 255

/-- What one call does on the ring: the controller fetches the command and nothing else,
from the address that the driver waits for. -/
theorem enqueueCommand_fetched {x x' : Xhci} {hc : Cursor} {word : Trb} {myTrb : BitVec 64}
    (h : CmdInStep x hc) (hword : word.type ≠ linkType)
    (henq : enqueueCommand x word = (myTrb, x')) :
    x'.cmdPhys = x.cmdPhys ∧ ∃ i t hc', i < 255 ∧ t.content = word.content ∧
      myTrb = x.cmdPhys.addr + BitVec.ofNat 64 (i * 16) ∧
      doorbell x.cmdPhys.addr x'.cmdRing hc = some ([(i, t)], hc') ∧
      CmdInStep x' hc' := by
  unfold enqueueCommand at henq
  have hle : x.cmdEnq ≤ 255 := h.le
  split_ifs at henq with hfull
  · cases henq
    have hstate : (x.cmdCycle ^^^ 1#32).getLsbD 0 = !x.cmdCycle.getLsbD 0 := by simp
    have hwrap := wraps_flipLink x.cmdPhys.addr x.cmdRing 255 x.cmdEnq (x.cmdCycle.getLsbD 0)
    rw [← hstate] at hwrap
    obtain ⟨hc', hdrain, hstep⟩ := InStep.wrap_put h (le_antisymm hle hfull) hwrap
      (puts_writeAll (x.cmdRing.flipLink 255) 255 0 ((x.cmdCycle ^^^ 1#32).getLsbD 0)
        [stamped word (x.cmdCycle ^^^ 1#32)])
      (fun e he => by
        rw [mem_singleton.mp he]
        exact ⟨cycle_stamped _ _, link_stamped hword _ _⟩)
      (by rw [length_singleton]; decide)
    exact ⟨rfl, 0, _, hc', by decide, content_stamped _ _, rfl,
      doorbell_of_drain hdrain (by rw [length_singleton]; decide), hstep⟩
  · cases henq
    have hlt : x.cmdEnq < 255 := not_le.mp hfull
    obtain ⟨hc', hdrain, hstep⟩ := InStep.put h
      (puts_writeAll x.cmdRing 255 x.cmdEnq (x.cmdCycle.getLsbD 0) [stamped word x.cmdCycle])
      (fun e he => by
        rw [mem_singleton.mp he]
        exact ⟨cycle_stamped _ _, link_stamped hword _ _⟩)
      hlt
    exact ⟨rfl, x.cmdEnq, _, hc', hlt, content_stamped _ _, rfl,
      doorbell_of_drain hdrain (by rw [length_singleton]; decide), hstep⟩

/-- One call went as it should: the controller fetched this command, once and nothing else,
and an accepted completion is the one of the fetched block. -/
def Exchange.Ok (base : BitVec 64) (word : Trb) (ex : Exchange) : Prop :=
  ex.word = word ∧ ∃ i t, ex.fetched = [(i, t)] ∧ i < 255 ∧ t.content = word.content ∧
    ex.myTrb = base + BitVec.ofNat 64 (i * 16) ∧
    ∀ ev, ex.accepted = some ev → ev.type = completionType ∧ ev.pointer = ex.myTrb

theorem sendCommand_ok {s : CommandSession} (h : CmdInStep s.driver s.hc) (call : Trb × EventView)
    (hword : call.1.type ≠ linkType) :
    ∃ s' ex, sendCommand s call = some s' ∧ s'.log = s.log ++ [ex] ∧
      s'.driver.cmdPhys = s.driver.cmdPhys ∧ CmdInStep s'.driver s'.hc ∧
      ex.Ok s.driver.cmdPhys.addr call.1 := by
  rcases henq : enqueueCommand s.driver call.1 with ⟨myTrb, x⟩
  obtain ⟨hphys, i, t, hc', hi, hcontent, hmy, hdrain, hstep⟩ :=
    enqueueCommand_fetched h hword henq
  obtain ⟨hsame, hacc⟩ := awaitCompletion_spec myTrb call.2 10000000 0 x
  rcases hawait : awaitCompletion myTrb call.2 10000000 0 x with ⟨accepted, x'⟩
  rw [hawait] at hsame hacc
  refine ⟨⟨x', hc', s.log ++ [⟨call.1, myTrb, [(i, t)], accepted⟩]⟩,
    ⟨call.1, myTrb, [(i, t)], accepted⟩, ?_, rfl, hsame.phys.trans hphys, ?_, ?_⟩
  · unfold sendCommand
    rw [henq]
    dsimp only
    rw [hphys, hdrain, Option.map_some, hawait]
  · unfold CmdInStep
    rw [hsame.phys, hsame.ring, hsame.enq, hsame.cycle]
    exact hstep
  · exact ⟨rfl, i, t, rfl, hi, hcontent, hmy, hacc⟩

/-- Calls that went as they should fetched the commands of the calls. -/
theorem fetched_of_ok {base : BitVec 64} {calls : List (Trb × EventView)} {exs : List Exchange}
    (h : List.Forall₂ (fun call ex => Exchange.Ok base call.1 ex) calls exs) :
    (exs.flatMap fun ex => ex.fetched.map fun f => f.2.content) =
      calls.map fun call => call.1.content := by
  induction h with
  | nil => rfl
  | cons hex _ ih =>
    obtain ⟨-, i, t, hfetched, -, hcontent, -⟩ := hex
    rw [flatMap_cons, hfetched, ih]
    exact congrArg (· :: _) hcontent

/-- However many commands are sent after `xhci_setup_and_run`, and whatever the event ring
holds at any time: the controller always comes to a stop, it has fetched exactly the
commands that were sent, once each and in order, and every completion that the driver
accepted points to the block that was fetched for the command it waited for. -/
theorem command_ring_protocol (cmdPhys : PhysPage) (calls : List (Trb × EventView))
    (hcalls : ∀ call ∈ calls, call.1.type ≠ linkType) :
    ∃ s, Run.run sendCommand (CommandSession.start cmdPhys) calls = some s ∧
      (s.log.flatMap fun ex => ex.fetched.map fun f => f.2.content) =
        calls.map (fun call => call.1.content) ∧
      List.Forall₂ (fun call ex => Exchange.Ok cmdPhys.addr call.1 ex) calls s.log := by
  -- for a session that is in step, with calls already in the log
  have hgeneral (s : CommandSession) (hs : CmdInStep s.driver s.hc)
      (hphys : s.driver.cmdPhys = cmdPhys) :
      ∃ s' exs, Run.run sendCommand s calls = some s' ∧ s'.log = s.log ++ exs ∧
        List.Forall₂ (fun call ex => Exchange.Ok cmdPhys.addr call.1 ex) calls exs := by
    induction calls generalizing s with
    | nil => exact ⟨s, [], rfl, (List.append_nil _).symm, .nil⟩
    | cons call calls ih =>
      obtain ⟨s1, ex, hsend, hlog, hphys1, hs1, hex⟩ :=
        sendCommand_ok hs call (hcalls call List.mem_cons_self)
      obtain ⟨s', exs, hrun, hlog', hexs⟩ :=
        ih (fun c hc => hcalls c (List.mem_cons_of_mem call hc)) s1 hs1 (hphys1.trans hphys)
      rw [hphys] at hex
      refine ⟨s', ex :: exs, ?_, ?_, .cons hex hexs⟩
      · rw [Run.run_cons, hsend]
        exact hrun
      · rw [hlog', hlog, List.append_assoc]
        rfl
  obtain ⟨s, exs, hrun, hlog, hexs⟩ :=
    hgeneral (CommandSession.start cmdPhys) (cmdInStep_start cmdPhys) rfl
  have hlog' : s.log = exs := hlog
  subst hlog'
  exact ⟨s, hrun, fetched_of_ok hexs, hexs⟩

/-- Three hundred no-op commands, which take the ring past its first wrap. -/
theorem command_ring_protocol_noops :
    ∃ s, Run.run sendCommand (CommandSession.start lowPage)
      (List.replicate 300 (⟨0#32, 0#32, 0#32, 23#32 <<< 10⟩, fun _ _ => ⟨0#32, 0#32, 0#32, 0#32⟩)) =
        some s ∧ s.log.length = 300 := by
  obtain ⟨s, hrun, -, hexs⟩ := command_ring_protocol lowPage
    (replicate 300 (⟨0#32, 0#32, 0#32, 23#32 <<< 10⟩, fun _ _ => ⟨0#32, 0#32, 0#32, 0#32⟩))
    (fun call hcall => by
      rw [eq_of_mem_replicate hcall]
      decide)
  refine ⟨s, hrun, ?_⟩
  rw [← hexs.length_eq, length_replicate]

end Crius.Usb
