import Mathlib.Tactic

/-!
# Rings with cycle bits

A producer and a consumer share a segment of memory and no counters. Every entry has a
cycle bit. The consumer keeps a position and a cycle state, takes entries while their bit
equals its state, and stops at the first one that differs. The segment ends in a link
entry, which the consumer follows back to the start, complementing its state.

The producer writes entries with its own cycle state. At the end of the segment it flips
the bit of the link and its own state and starts again. `InStep` is the relation between
the two sides that makes this work: nothing from the producer's position up to the link
may carry the producer's cycle state.
-/
namespace Crius.Lib.CycleRing

open List

variable {E : Type*}

/-- What a consumer can see of an entry: its cycle bit, and for a link the position it
leads to and whether it complements the cycle state. -/
structure Shape (E : Type*) where
  cycle : E → Bool
  link : E → Option (Nat × Bool)

/-- The consumer: its dequeue position and cycle state. -/
structure Cursor where
  pos : Nat
  state : Bool
  deriving DecidableEq, Repr

/-- Consume entries until one has the wrong cycle bit. The result is the entries taken,
each with its position, and the cursor at which the consumer stopped; `none` if it has not
stopped after the given number of entries. -/
def drain (S : Shape E) (mem : Nat → E) : Nat → Cursor → Option (List (Nat × E) × Cursor)
  | 0, _ => none
  | fuel + 1, c =>
    if S.cycle (mem c.pos) = c.state then
      match S.link (mem c.pos) with
      | some (target, toggle) => drain S mem fuel ⟨target, xor toggle c.state⟩
      | none => (drain S mem fuel ⟨c.pos + 1, c.state⟩).map fun r => ((c.pos, mem c.pos) :: r.1, r.2)
    else some ([], c)

variable {S : Shape E} {mem : Nat → E} {c : Cursor}

theorem drain_stop (h : S.cycle (mem c.pos) ≠ c.state) (fuel : Nat) :
    drain S mem (fuel + 1) c = some ([], c) := by
  rw [drain, if_neg h]

theorem drain_link {target : Nat} {toggle : Bool} (h : S.cycle (mem c.pos) = c.state)
    (hlink : S.link (mem c.pos) = some (target, toggle)) (fuel : Nat) :
    drain S mem (fuel + 1) c = drain S mem fuel ⟨target, xor toggle c.state⟩ := by
  rw [drain, if_pos h, hlink]

theorem drain_work (h : S.cycle (mem c.pos) = c.state) (hlink : S.link (mem c.pos) = none)
    (fuel : Nat) :
    drain S mem (fuel + 1) c = (drain S mem fuel ⟨c.pos + 1, c.state⟩).map
      fun r => ((c.pos, mem c.pos) :: r.1, r.2) := by
  rw [drain, if_pos h, hlink]

/-- Once the consumer has stopped, more fuel changes nothing. -/
theorem drain_mono {fuel : Nat} {r : List (Nat × E) × Cursor}
    (h : drain S mem fuel c = some r) (more : Nat) : drain S mem (fuel + more) c = some r := by
  induction fuel generalizing c r with
  | zero => cases h
  | succ fuel ih =>
    rw [Nat.add_right_comm]
    by_cases hcycle : S.cycle (mem c.pos) = c.state
    · cases hlink : S.link (mem c.pos) with
      | some l =>
        rw [drain_link hcycle hlink] at h ⊢
        exact ih h
      | none =>
        rw [drain_work hcycle hlink] at h ⊢
        obtain ⟨r', hr', rfl⟩ := Option.map_eq_some_iff.mp h
        rw [ih hr']
        rfl
    · rw [drain_stop hcycle] at h ⊢
      exact h

/-- Entries with the positions at which they stand. -/
def placed : Nat → List E → List (Nat × E)
  | _, [] => []
  | pos, e :: es => (pos, e) :: placed (pos + 1) es

/-- The entries stand in memory from the given position on. -/
def Stands (mem : Nat → E) : Nat → List E → Prop
  | _, [] => True
  | pos, e :: es => mem pos = e ∧ Stands mem (pos + 1) es

/-- A consumer in front of entries with its own cycle state takes exactly these. -/
theorem drain_stands {pos : Nat} {state : Bool} {es : List E} (hstands : Stands mem pos es)
    (hes : ∀ e ∈ es, S.cycle e = state ∧ S.link e = none)
    (hend : S.cycle (mem (pos + es.length)) ≠ state) :
    drain S mem (es.length + 1) ⟨pos, state⟩ = some (placed pos es, ⟨pos + es.length, state⟩) := by
  induction es generalizing pos with
  | nil => exact drain_stop hend 0
  | cons e es ih =>
    obtain ⟨he, htail⟩ := hstands
    obtain ⟨hcycle, hlink⟩ := hes e mem_cons_self
    rw [length_cons] at hend ⊢
    have hend' : S.cycle (mem (pos + 1 + es.length)) ≠ state := by
      rw [Nat.add_right_comm]
      exact hend
    have hrest := ih htail (fun e' he' => hes e' (mem_cons_of_mem e he')) hend'
    have hhead : S.cycle (mem pos) = state ∧ S.link (mem pos) = none := by
      rw [he]
      exact ⟨hcycle, hlink⟩
    rw [drain_work hhead.1 hhead.2, hrest, Option.map_some, he, Nat.add_right_comm pos 1]
    rfl

/-! ## The producer -/

/-- The producer's side: the memory, the enqueue position and the producer's cycle state. -/
structure Ring (E : Type*) where
  mem : Nat → E
  enq : Nat
  state : Bool

/-- `n` entries and a link to the first one, with the two sides at the same place: the
consumer waits at the enqueue position with the producer's state, and no entry from there
on, the link included, has that state. The entries behind were written in this round. -/
structure InStep (S : Shape E) (n : Nat) (r : Ring E) (c : Cursor) : Prop where
  link : S.link (r.mem n) = some (0, true)
  le : r.enq ≤ n
  cursor : c = ⟨r.enq, r.state⟩
  ahead : ∀ i, r.enq ≤ i → i ≤ n → S.cycle (r.mem i) ≠ r.state
  behind : ∀ i < r.enq, S.cycle (r.mem i) = r.state

/-- `es` are written at the enqueue position and nothing else changes. -/
structure Puts (n : Nat) (r : Ring E) (es : List E) (r' : Ring E) : Prop where
  stands : Stands r'.mem r.enq es
  other : ∀ i ≤ n, i < r.enq ∨ r.enq + es.length ≤ i → r'.mem i = r.mem i
  enq : r'.enq = r.enq + es.length
  state : r'.state = r.state

/-- The bit of the link and the producer's state are flipped, and the producer is back at
the start. -/
structure Wraps (S : Shape E) (n : Nat) (r r' : Ring E) : Prop where
  cycle : S.cycle (r'.mem n) = !S.cycle (r.mem n)
  link : S.link (r'.mem n) = S.link (r.mem n)
  other : ∀ i < n, r'.mem i = r.mem i
  enq : r'.enq = 0
  state : r'.state = !r.state

theorem Stands.get {pos i : Nat} {es : List E} (h : Stands mem pos es) (hi : i < es.length) :
    mem (pos + i) ∈ es := by
  induction es generalizing pos i with
  | nil => cases hi
  | cons e es ih =>
    cases i with
    | zero => exact mem_cons.mpr (.inl h.1)
    | succ i =>
      have hmem := ih h.2 (Nat.lt_of_succ_lt_succ hi)
      rw [Nat.add_assoc, Nat.add_comm 1 i] at hmem
      exact mem_cons_of_mem e hmem

variable {n : Nat} {r r' r'' : Ring E} {es : List E}

/-- The relation between the sides after entries have been put, from what holds before. -/
theorem inStep_of_puts (hput : Puts n r es r') (hes : ∀ e ∈ es, S.cycle e = r.state)
    (hfit : r.enq + es.length ≤ n) (hlink : S.link (r.mem n) = some (0, true))
    (hahead : ∀ i, r.enq + es.length ≤ i → i ≤ n → S.cycle (r.mem i) ≠ r.state)
    (hbehind : ∀ i < r.enq, S.cycle (r.mem i) = r.state) :
    InStep S n r' ⟨r.enq + es.length, r.state⟩ := by
  refine ⟨?_, ?_, ?_, ?_, ?_⟩
  · rw [hput.other n le_rfl (.inr hfit)]
    exact hlink
  · rw [hput.enq]
    exact hfit
  · rw [hput.enq, hput.state]
  · intro i hi hin
    rw [hput.enq] at hi
    rw [hput.state, hput.other i hin (.inr hi)]
    exact hahead i hi hin
  · intro i hi
    rw [hput.enq] at hi
    rw [hput.state]
    by_cases hold : i < r.enq
    · rw [hput.other i (by omega) (.inl hold)]
      exact hbehind i hold
    · have hlt : i - r.enq < es.length := by omega
      have hmem := hput.stands.get hlt
      rw [Nat.add_sub_cancel' (not_lt.mp hold)] at hmem
      exact hes _ hmem

/-- Entries that fit before the link are taken, once each and in order. -/
theorem InStep.put (h : InStep S n r c) (hput : Puts n r es r')
    (hes : ∀ e ∈ es, S.cycle e = r.state ∧ S.link e = none) (hfit : r.enq + es.length ≤ n) :
    ∃ c', drain S r'.mem (es.length + 1) c = some (placed r.enq es, c') ∧ InStep S n r' c' := by
  have hstep := inStep_of_puts hput (fun e he => (hes e he).1) hfit h.link
    (fun i hi hin => h.ahead i (by omega) hin) h.behind
  refine ⟨_, ?_, hstep⟩
  rw [h.cursor]
  apply drain_stands hput.stands hes
  have hahead := hstep.ahead (r.enq + es.length) hput.enq.le hfit
  rw [hput.state] at hahead
  exact hahead

/-- At the end of the segment the consumer follows the link to the entries that are put at
the start. -/
theorem InStep.wrap_put (h : InStep S n r c) (hfull : r.enq = n) (hwrap : Wraps S n r r')
    (hput : Puts n r' es r'') (hes : ∀ e ∈ es, S.cycle e = r'.state ∧ S.link e = none)
    (hfit : es.length ≤ n) :
    ∃ c', drain S r''.mem (es.length + 2) c = some (placed 0 es, c') ∧ InStep S n r'' c' := by
  have hlinkBit : S.cycle (r'.mem n) = r.state := by
    have hne := h.ahead n hfull.le le_rfl
    rw [hwrap.cycle]
    cases hs : S.cycle (r.mem n) <;> cases ht : r.state <;> simp_all
  have hflip : r.state ≠ r'.state := by
    rw [hwrap.state]
    cases r.state <;> decide
  have hlast : S.cycle (r'.mem n) ≠ r'.state := by
    rw [hlinkBit]
    exact hflip
  have hold (i : Nat) (hi : i < n) : S.cycle (r'.mem i) ≠ r'.state := by
    rw [hwrap.other i hi, h.behind i (by omega)]
    exact hflip
  have hfit' : r'.enq + es.length ≤ n := by
    rw [hwrap.enq, Nat.zero_add]
    exact hfit
  have hlink : S.link (r'.mem n) = some (0, true) := hwrap.link.trans h.link
  have hstep := inStep_of_puts hput (fun e he => (hes e he).1) hfit' hlink
    (fun i _ hin => by
      rcases lt_or_eq_of_le hin with hlt | rfl
      · exact hold i hlt
      · exact hlast)
    (fun i hi => by rw [hwrap.enq] at hi; exact absurd hi (Nat.not_lt_zero i))
  refine ⟨_, ?_, hstep⟩
  -- the consumer stands on the link, whose bit now equals its state
  have hcur : c = ⟨n, r.state⟩ := by rw [h.cursor, hfull]
  have hsame : r''.mem n = r'.mem n := hput.other n le_rfl (.inr hfit')
  have hmatch : S.cycle (r''.mem c.pos) = c.state ∧ S.link (r''.mem c.pos) = some (0, true) := by
    rw [hcur]
    rw [hsame]
    exact ⟨hlinkBit, hlink⟩
  rw [drain_link hmatch.1 hmatch.2, hcur]
  have hstate : xor true r.state = r'.state := by
    rw [hwrap.state, Bool.true_xor]
  rw [hstate, hwrap.enq]
  have hstands := hput.stands
  rw [hwrap.enq] at hstands
  apply drain_stands hstands hes
  have hend : r''.enq = 0 + es.length := by rw [hput.enq, hwrap.enq]
  have hahead := hstep.ahead (0 + es.length) hend.le (by omega)
  rw [hput.state] at hahead
  exact hahead

/-- A producer that starts again before the end of the segment leaves entries without its
cycle state in front of the consumer, which stays where it is and takes nothing. -/
theorem InStep.wrap_early (h : InStep S n r c) (hearly : r.enq < n) (hwrap : Wraps S n r r')
    (hput : Puts n r' es r'') (hfit : es.length ≤ r.enq) (fuel : Nat) :
    drain S r''.mem (fuel + 1) c = some ([], c) := by
  apply drain_stop
  rw [h.cursor]
  rw [hput.other r.enq hearly.le (.inr (by rw [hwrap.enq]; omega)), hwrap.other r.enq hearly]
  exact h.ahead r.enq le_rfl hearly.le

end Crius.Lib.CycleRing
