import Mathlib.Tactic

/-!
# The MADT

`acpi_parse_madt` of `arch/apic.c` over the bytes of a table, called with two pointers that
are not null as in `apic_init`. A result of `none` stands for a read behind the table or for
a loop that has not ended. Offsets are 32-bit numbers.
-/
namespace Crius.Arch

open Option List

/-- `acpi_u32` and `acpi_u64`, for `n` bytes at `p`. -/
def acpiUint (t : List UInt8) (n p : Nat) : Option Nat :=
  (List.range n).foldlM (fun v i => t[p + i]?.map fun b => v ||| b.toNat <<< (i * 8)) 0

/-- `*lapic` and `*ioapic` -/
structure Apics where
  lapic : Nat
  ioapic : Nat
  deriving DecidableEq, Repr

/-- The loop over the entries. -/
def parseEntries (t : List UInt8) (madtLen : Nat) : Nat → Nat → Apics → Option Apics
  | 0, _, _ => none
  | fuel + 1, off, a =>
    if madtLen < (off + 2) % 2 ^ 32 then some a
    else do
      let type ← t[off]?
      let len ← t[(off + 1) % 2 ^ 32]?
      if len = 0 ∨ madtLen < (off + len.toNat) % 2 ^ 32 then some a
      else
        let a ←
          if type = 1 ∧ 12 ≤ len then (acpiUint t 4 (off + 4)).map fun v => { a with ioapic := v }
          else if type = 5 ∧ 12 ≤ len then (acpiUint t 8 (off + 4)).map fun v => { a with lapic := v }
          else some a
        parseEntries t madtLen fuel ((off + len.toNat) % 2 ^ 32) a

def acpiParseMadt (t : List UInt8) : Option Apics := do
  let madtLen ← acpiUint t 4 4
  let lapic ← acpiUint t 4 36
  parseEntries t madtLen (madtLen + 1) 44 ⟨lapic, 0⟩

/-! ## The entries of a table -/

structure Entry where
  type : UInt8
  len : UInt8
  off : Nat

/-- The entries from `off` on, up to a zero length or an entry that crosses the end. -/
def entries (t : List UInt8) : Nat → Nat → List Entry
  | 0, _ => []
  | fuel + 1, off =>
    match t[off]?, t[off + 1]? with
    | some type, some len =>
      if len = 0 ∨ t.length < off + len.toNat then []
      else ⟨type, len, off⟩ :: entries t fuel (off + len.toNat)
    | _, _ => []

/-- The address fields, of `n` bytes, of the entries of one type that are long enough. -/
def addresses (t : List UInt8) (type : UInt8) (n : Nat) (es : List Entry) : List Nat :=
  (es.filter fun e => e.type = type ∧ 12 ≤ e.len).map fun e => (acpiUint t n (e.off + 4)).getD 0

def ioapics (t : List UInt8) : List Nat := addresses t 1 4 (entries t (t.length + 1) 44)

def lapicOverrides (t : List UInt8) : List Nat := addresses t 5 8 (entries t (t.length + 1) 44)

variable {t : List UInt8} {n p : Nat}

theorem acpiUint_inside (h : p + n ≤ t.length) : ∃ v, acpiUint t n p = some v := by
  have hall (l : List Nat) (hl : ∀ i ∈ l, i < n) (v : Nat) : ∃ w,
      l.foldlM (fun v i => t[p + i]?.map fun b => v ||| b.toNat <<< (i * 8)) v = some w := by
    induction l generalizing v with
    | nil => exact ⟨v, rfl⟩
    | cons i l ih =>
      have hi := hl i mem_cons_self
      rw [foldlM_cons, getElem?_eq_getElem (by omega)]
      exact ih (fun j hj => hl j (mem_cons_of_mem i hj)) _
  exact hall _ (fun i hi => mem_range.mp hi) 0

theorem addresses_cons (t : List UInt8) (type : UInt8) (n : Nat) (e : Entry) (es : List Entry) :
    addresses t type n (e :: es) =
      if e.type = type ∧ 12 ≤ e.len then (acpiUint t n (e.off + 4)).getD 0 :: addresses t type n es
      else addresses t type n es := by
  unfold addresses
  rw [filter_cons]
  split_ifs <;> simp_all

/-- No byte is the length of an entry whose end is 4 GiB or more behind the start of the table. -/
def EndsFit (t : List UInt8) : Prop := ∀ off len, t[off + 1]? = some len → off + len.toNat < 2 ^ 32

/-- A length is at most 255, so this can fail in the last 254 bytes below 4 GiB only. -/
theorem endsFit_of_length (h : t.length + 253 < 2 ^ 32) : EndsFit t := by
  intro off len hlen
  obtain ⟨hlt, -⟩ := List.getElem?_eq_some_iff.mp hlen
  have hbyte := len.toNat_lt
  omega

/-- Without a wrap-around the loop ends, stays inside the table and returns the last address
of either kind. -/
theorem parseEntries_eq (hlen : t.length + 2 < 2 ^ 32) (hends : EndsFit t) (fuel off : Nat)
    (hoff : off ≤ t.length) (hfuel : t.length < off + fuel) (a : Apics) :
    parseEntries t t.length fuel off a =
      some ⟨(addresses t 5 8 (entries t fuel off)).getLastD a.lapic,
        (addresses t 1 4 (entries t fuel off)).getLastD a.ioapic⟩ := by
  induction fuel generalizing off a with
  | zero => omega
  | succ fuel ih =>
    rw [parseEntries, entries, Nat.mod_eq_of_lt (by omega : off + 2 < 2 ^ 32),
      Nat.mod_eq_of_lt (by omega : off + 1 < 2 ^ 32)]
    by_cases hend : t.length < off + 2
    · have hnone : t[off + 1]? = none := getElem?_eq_none (by omega)
      rw [if_pos hend, hnone]
      cases t[off]? <;> rfl
    · have htype : t[off]? = some t[off] := getElem?_eq_getElem (by omega)
      have hlen' : t[off + 1]? = some t[off + 1] := getElem?_eq_getElem (by omega)
      generalize t[off] = type at htype
      generalize t[off + 1] = len at hlen'
      have hle : 12 ≤ len → 12 ≤ len.toNat := UInt8.le_iff_toNat_le.mp
      rw [if_neg hend, htype, hlen']
      simp only [bind_eq_bind, bind_some,
        Nat.mod_eq_of_lt (hends off len hlen')]
      by_cases hstop : len = 0 ∨ t.length < off + len.toNat
      · rw [if_pos hstop, if_pos hstop]
        rfl
      · have hpos : len.toNat ≠ 0 := fun hz => hstop (Or.inl (UInt8.toNat_inj.mp hz))
        have hrest := ih (off + len.toNat) (by omega) (by omega)
        rw [if_neg hstop, if_neg hstop, addresses_cons, addresses_cons]
        by_cases h1 : type = 1 ∧ 12 ≤ len
        · have h5 : ¬(type = 5 ∧ 12 ≤ len) := by simp [h1.1]
          obtain ⟨v, hv⟩ : ∃ v, acpiUint t 4 (off + 4) = some v :=
            acpiUint_inside (by have := hle h1.2; omega)
          rw [if_pos h1, if_pos h1, if_neg h5, hv, map_some, bind_some, hrest,
            getLastD_cons]
          rfl
        · rw [if_neg h1, if_neg h1]
          by_cases h5 : type = 5 ∧ 12 ≤ len
          · obtain ⟨v, hv⟩ : ∃ v, acpiUint t 8 (off + 4) = some v :=
              acpiUint_inside (by have := hle h5.2; omega)
            rw [if_pos h5, if_pos h5, hv, map_some, bind_some, hrest,
              getLastD_cons]
            rfl
          · rw [if_neg h5, if_neg h5]
            exact hrest a

/-- `acpi_parse_madt` on every table of less than 4 GiB whose lengths do not lead beyond 4 GiB: it
ends, reads only bytes of the table, returns the last override or else the address of the
header, and as the I/O APIC that of the last entry. So it returns that of the first entry if
and only if the two have the same address. -/
theorem madt_parsed_iff {lapic : Nat} (hstated : acpiUint t 4 4 = some t.length)
    (hmin : 44 ≤ t.length) (hmax : t.length + 2 < 2 ^ 32) (hends : EndsFit t)
    (hlapic : acpiUint t 4 36 = some lapic) :
    acpiParseMadt t = some ⟨(lapicOverrides t).getLastD lapic, (ioapics t).headD 0⟩ ↔
      (ioapics t).headD 0 = (ioapics t).getLastD 0 := by
  have hparse : acpiParseMadt t =
      some ⟨(lapicOverrides t).getLastD lapic, (ioapics t).getLastD 0⟩ := by
    unfold acpiParseMadt
    rw [hstated, hlapic]
    exact parseEntries_eq hmax hends _ 44 hmin (by omega) _
  rw [hparse]
  simp only [some.injEq, Apics.mk.injEq, true_and]
  exact eq_comm

/-- A table with two I/O APICs, at the addresses `x` and `y`. -/
def twoIoapics (x y : UInt8) : List UInt8 :=
  List.replicate 4 0 ++ [68, 0, 0, 0] ++ List.replicate 36 0 ++
    [1, 12, 0, 0, x, 0, 0, 0, 0, 0, 0, 0] ++ [1, 12, 0, 0, y, 0, 0, 0, 0, 0, 0, 0]

theorem madt_parsed_iff_same : acpiParseMadt (twoIoapics 7 7) =
    some ⟨(lapicOverrides (twoIoapics 7 7)).getLastD 0, (ioapics (twoIoapics 7 7)).headD 0⟩ :=
  (madt_parsed_iff (by decide +kernel) (by decide) (by decide) (endsFit_of_length (by decide))
    (by decide +kernel)).mpr (by decide +kernel)

/-- The second of two I/O APICs is returned. -/
theorem madt_takes_second :
    acpiParseMadt (twoIoapics 1 2) = some ⟨0, 2⟩ ∧ ioapics (twoIoapics 1 2) = [1, 2] := by
  decide +kernel

end Crius.Arch
