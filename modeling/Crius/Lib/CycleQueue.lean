import Mathlib.Order.Lattice

/-!
# Queues in a ring with cycle bits

A queue in `n` slots without a link: both sides go back to slot 0 after the last slot and
complement their cycle state there. The consumer knows its own index and state only; a slot
holds an entry for it if the cycle bit of the slot equals the state. `Holds` says that what
the consumer would find, slot after slot, is a given list of entries.
-/
namespace Crius.Lib.CycleQueue

open Function Nat

variable {E : Type*}

/-- The cycle state `k` slots after index `idx`. -/
def lap (n idx : Nat) (state : Bool) (k : Nat) : Bool := if idx + k < n then state else !state

/-- The index and state after one more slot. -/
def next (n idx : Nat) (state : Bool) : Nat × Bool :=
  if n ≤ idx + 1 then (0, !state) else (idx + 1, state)

/-- The slots from the consumer's index on hold the entries of `q` and then nothing; the
producer is behind the last one. -/
structure Holds (cycle : E → Bool) (n : Nat) (mem : Nat → E) (idx : Nat) (state : Bool)
    (enq : Nat) (pcs : Bool) (q : List E) : Prop where
  lt : idx < n
  room : q.length < n
  enq_eq : enq = (idx + q.length) % n
  pcs_eq : pcs = lap n idx state q.length
  filled : ∀ k e, q[k]? = some e → mem ((idx + k) % n) = e ∧ cycle e = lap n idx state k
  free : ∀ k, q.length ≤ k → k < n → cycle (mem ((idx + k) % n)) ≠ lap n idx state k

variable {cycle : E → Bool} {n : Nat} {mem : Nat → E} {idx enq : Nat} {state pcs : Bool}
  {q : List E} {e : E}

/-- Fewer than `n` slots after an index there is at most one wrap. -/
theorem mod_slot {k : Nat} (h : idx < n) (hk : k < n) :
    (idx + k) % n = if idx + k < n then idx + k else idx + k - n := by
  split
  · next hlt => exact mod_eq_of_lt hlt
  · next hge => rw [mod_eq_sub_mod (not_lt.mp hge), mod_eq_of_lt (by omega)]

theorem mod_next {k : Nat} (h : idx < n) : ((next n idx state).1 + k) % n = (idx + (k + 1)) % n := by
  unfold next
  split
  · next hwrap =>
    have hidx : idx + (k + 1) = k + n := by omega
    rw [hidx, Nat.add_mod_right, Nat.zero_add]
  · rw [Nat.add_assoc, Nat.add_comm 1 k]

theorem lap_next {k : Nat} (h : idx < n) (hk : k + 1 < n) :
    lap n (next n idx state).1 (next n idx state).2 k = lap n idx state (k + 1) := by
  unfold next lap
  by_cases hwrap : n ≤ idx + 1
  · rw [if_pos hwrap, if_pos (by dsimp only; omega), if_neg (by omega)]
  · rw [if_neg hwrap]
    by_cases hlt : idx + (k + 1) < n
    · rw [if_pos (by dsimp only; omega), if_pos hlt]
    · rw [if_neg (by dsimp only; omega), if_neg hlt]

/-- An empty queue: the slot at the index has the wrong cycle bit. -/
theorem Holds.head_none (h : Holds cycle n mem idx state enq pcs []) : cycle (mem idx) ≠ state := by
  have hfree := h.free 0 le_rfl h.room
  rw [Nat.add_zero, Nat.mod_eq_of_lt h.lt] at hfree
  have hlap : lap n idx state 0 = state := if_pos h.lt
  rwa [hlap] at hfree

/-- The slot at the index holds the head of the queue. -/
theorem Holds.head_cons (h : Holds cycle n mem idx state enq pcs (e :: q)) :
    mem idx = e ∧ cycle e = state := by
  obtain ⟨hmem, hcycle⟩ := h.filled 0 e rfl
  rw [Nat.add_zero, Nat.mod_eq_of_lt h.lt] at hmem
  have hlap : lap n idx state 0 = state := if_pos h.lt
  rw [hlap] at hcycle
  exact ⟨hmem, hcycle⟩

/-- The two indices are equal exactly when the queue is empty. -/
theorem Holds.enq_eq_idx (h : Holds cycle n mem idx state enq pcs q) : enq = idx ↔ q = [] := by
  have hlt := h.lt
  have hroom := h.room
  have henq := h.enq_eq
  constructor
  · intro heq
    apply List.eq_nil_of_length_eq_zero
    rw [mod_slot hlt hroom] at henq
    split_ifs at henq <;> omega
  · rintro rfl
    rw [henq, List.length_nil, Nat.add_zero, Nat.mod_eq_of_lt hlt]

/-- The producer has one slot left exactly when the queue has `n - 1` entries. -/
theorem Holds.full_iff (h : Holds cycle n mem idx state enq pcs q) :
    (enq + 1) % n = idx ↔ q.length + 1 = n := by
  have hlt := h.lt
  have hroom := h.room
  rw [h.enq_eq, mod_add_mod]
  constructor
  · intro heq
    by_contra hne
    by_cases hwrap : idx + q.length + 1 < n
    · rw [mod_eq_of_lt hwrap] at heq
      omega
    · rw [mod_eq_sub_mod (not_lt.mp hwrap), mod_eq_of_lt (by omega)] at heq
      omega
  · intro heq
    have hsum : idx + q.length + 1 = idx + n := by omega
    rw [hsum, add_mod_right, mod_eq_of_lt hlt]

/-- The consumer moves on. -/
theorem Holds.tail (h : Holds cycle n mem idx state enq pcs (e :: q)) :
    Holds cycle n mem (next n idx state).1 (next n idx state).2 enq pcs q := by
  have hroom : q.length + 1 < n := h.room
  have hlt := h.lt
  refine ⟨?_, by omega, ?_, ?_, ?_, ?_⟩
  · unfold next
    split
    · exact lt_of_le_of_lt (zero_le idx) hlt
    · exact not_le.mp ‹_›
  · rw [mod_next hlt]
    exact h.enq_eq
  · rw [lap_next hlt hroom]
    exact h.pcs_eq
  · intro k e' hk
    have hklt : k < q.length := by
      obtain ⟨hk', -⟩ := List.getElem?_eq_some_iff.mp hk
      exact hk'
    rw [mod_next hlt, lap_next hlt (by omega)]
    exact h.filled (k + 1) e' hk
  · intro k hk hkn
    by_cases hlast : k + 1 < n
    · rw [mod_next hlt, lap_next hlt hlast]
      exact h.free (k + 1) (succ_le_succ hk) hlast
    · -- the slot that has just been read
      have hslot : (idx + (k + 1)) % n = idx := by
        have hk1 : k + 1 = n := by omega
        rw [hk1, add_mod_right, mod_eq_of_lt hlt]
      obtain ⟨hmem, hcycle⟩ := h.head_cons
      rw [mod_next hlt, hslot, hmem, hcycle]
      unfold next lap
      by_cases hwrap : n ≤ idx + 1
      · rw [if_pos hwrap, if_pos (by dsimp only; omega)]
        cases state <;> decide
      · rw [if_neg hwrap, if_neg (by dsimp only; omega)]
        dsimp only
        cases state <;> decide

/-- The producer writes an entry with its own state. -/
theorem Holds.post (h : Holds cycle n mem idx state enq pcs q) (hroom : q.length + 1 < n)
    (he : cycle e = pcs) :
    Holds cycle n (update mem enq e) idx state (next n enq pcs).1 (next n enq pcs).2
      (q ++ [e]) := by
  have hlt := h.lt
  have hlen : (q ++ [e]).length = q.length + 1 := by rw [List.length_append, List.length_singleton]
  have hne (k : Nat) (hk : k < n) (hkq : k ≠ q.length) : (idx + k) % n ≠ enq := by
    rw [h.enq_eq, mod_slot hlt hk, mod_slot hlt h.room]
    split_ifs <;> omega
  have henq : enq < n := by
    rw [h.enq_eq]
    exact Nat.mod_lt _ (Nat.lt_of_le_of_lt (Nat.zero_le idx) hlt)
  refine ⟨hlt, by omega, ?_, ?_, ?_, ?_⟩
  · rw [hlen]
    have hstep := h.enq_eq
    have hsucc : (enq + 1) % n = (idx + (q.length + 1)) % n := by
      rw [hstep, Nat.mod_add_mod, Nat.add_assoc]
    rw [← hsucc]
    unfold next
    split
    · next hwrap =>
      have hn : enq + 1 = n := by omega
      rw [hn, Nat.mod_self]
    · next hwrap => rw [Nat.mod_eq_of_lt (not_le.mp hwrap)]
  · rw [hlen, h.pcs_eq]
    have hstep := h.enq_eq
    unfold next lap
    by_cases hwrap : idx + q.length < n
    · rw [Nat.mod_eq_of_lt hwrap] at hstep
      rw [if_pos hwrap]
      by_cases hend : n ≤ enq + 1
      · rw [if_pos hend, if_neg (by omega)]
      · rw [if_neg hend, if_pos (by omega)]
    · rw [mod_slot hlt h.room, if_neg hwrap] at hstep
      rw [if_neg hwrap, if_neg (by omega), if_neg (by omega)]
  · intro k e' hk
    by_cases hold : k < q.length
    · rw [List.getElem?_append_left hold] at hk
      rw [update_of_ne (hne k (by omega) (by omega))]
      exact h.filled k e' hk
    · obtain ⟨hklt, hget⟩ := List.getElem?_eq_some_iff.mp hk
      have hkeq : k = q.length := by omega
      subst hkeq
      have hee : e' = e := by simpa using hget.symm
      rw [hee, ← h.enq_eq, update_self, ← h.pcs_eq]
      exact ⟨rfl, he⟩
  · intro k hk hkn
    rw [update_of_ne (hne k hkn (by omega))]
    exact h.free k (by omega) hkn

end Crius.Lib.CycleQueue
