import Mathlib.Tactic

/-!
# Configuration descriptors

`xhci_get_config_descriptor` over the bytes from the start of the descriptor page on, `first`
after the first transfer and `second` after the second one. The loop is modelled together
with the indices of the bytes that it reads, each with the index of its descriptor. The
messages on the serial line are left out.
-/
namespace Crius.Usb

open List

structure Endpoint where
  num : UInt8
  id : UInt8
  maxpkt : UInt16
  ifnum : UInt8
  interval : UInt8
  deriving DecidableEq, Repr

/-- The variables of the driver that the function sets. -/
structure Config where
  configValue : UInt8
  firstIfClass : UInt8
  firstIfSub : UInt8
  firstIfProto : UInt8
  ep1 : Endpoint
  deriving DecidableEq, Repr

/-- The same with the local variables of the function. -/
structure Parse extends Config where
  curIf : UInt8 := 0
  curClass : UInt8 := 0
  curSub : UInt8 := 0
  curProto : UInt8 := 0
  got : Bool := false
  fb : Endpoint := ⟨0, 0, 0, 0xFF, 0⟩

/-- The endpoint described at `i`; the interval of xHCI is `bInterval - 1`. -/
def endpointAt (b : Nat → UInt8) (i : Nat) (curIf : UInt8) : Endpoint where
  num := b (i + 2) &&& 0x0F
  id := ((b (i + 2) &&& 0x0F) <<< 1) + 1
  maxpkt := (b (i + 4)).toUInt16 ||| (b (i + 5)).toUInt16 <<< 8
  ifnum := curIf
  interval := if 0 < b (i + 6) then b (i + 6) - 1 else 0

/-- The body of the loop behind the two header bytes, with the indices that it reads. -/
def descriptor (b : Nat → UInt8) (i : Nat) (p : Parse) : Parse × List Nat :=
  if b (i + 1) = 4 then
    let p := { p with curIf := b (i + 2), curClass := b (i + 5), curSub := b (i + 6),
                      curProto := b (i + 7) }
    (if p.firstIfClass = 0 then
      { p with firstIfClass := p.curClass, firstIfSub := p.curSub, firstIfProto := p.curProto }
    else p, [i + 2, i + 5, i + 6, i + 7])
  else if b (i + 1) = 0x21 then (p, [i + 7, i + 8, i + 4])
  else if b (i + 1) = 5 then
    let epIn := b (i + 2) &&& 0x80 ≠ 0 ∧ p.got = false ∧ p.curClass = 3
    if epIn ∧ p.curSub = 1 ∧ p.curProto = 1 then
      ({ p with got := true, ep1 := endpointAt b i p.curIf }, [i + 4, i + 5, i + 2, i + 3, i + 6])
    else if epIn ∧ p.fb.id = 0 ∧ b (i + 3) &&& 3 = 3 then
      ({ p with fb := endpointAt b i p.curIf }, [i + 4, i + 5, i + 2, i + 3, i + 6])
    else (p, [i + 4, i + 5, i + 2, i + 3])
  else (p, [])

def descriptors (b : Nat → UInt8) (wTotalLength : Nat) :
    Nat → Nat → Parse → Option (Parse × List (Nat × Nat))
  | 0, _, _ => none
  | fuel + 1, i, p =>
    if wTotalLength ≤ i + 1 then some (p, [])
    else if b i = 0 then some (p, [(i, i), (i, i + 1)])
    else
      let d := descriptor b i p
      (descriptors b wTotalLength fuel ((i + (b i).toNat) % 2 ^ 16) d.1).map fun r =>
        (r.1, (i :: (i + 1) :: d.2).map (Prod.mk i) ++ r.2)

def wTotalLength (first : Nat → UInt8) : Nat :=
  let stated := (first 2).toNat ||| (first 3).toNat <<< 8
  if 4096 < stated then 4096 else stated

/-- The bytes that the loop works on. -/
def configBytes (first second : Nat → UInt8) : Nat → UInt8 :=
  if 64 < wTotalLength first then second else first

/-- The function, with the completion codes of the two transfers. -/
def xhciGetConfigDescriptor (cc cc2 : UInt8) (first second : Nat → UInt8) (g : Config) :
    Option (Config × List (Nat × Nat)) :=
  let total := wTotalLength first
  let b := configBytes first second
  if cc ≠ 1 ∧ cc ≠ 13 then some (g, [])
  else if 64 < total ∧ cc2 ≠ 1 ∧ cc2 ≠ 13 then some (g, [])
  else
    let g := { g with configValue := if b 5 = 0 then 1 else b 5 }
    (descriptors b total (total + 256) 0 { g with }).map fun r =>
      (if r.1.got = false ∧ r.1.fb.id ≠ 0 then { r.1.toConfig with ep1 := r.1.fb }
      else r.1.toConfig, r.2)

/-! ## Bounds of the reads -/

/-- The variables when the loop starts. -/
def firstParse (b : Nat → UInt8) (g : Config) : Parse :=
  { g with configValue := if b 5 = 0 then 1 else b 5 }

/-- The descriptors that the loop comes to, each with the variables that it finds. -/
def starts (b : Nat → UInt8) (total : Nat) : Nat → Nat → Parse → List (Nat × Parse)
  | 0, _, _ => []
  | fuel + 1, i, p =>
    if total ≤ i + 1 ∨ b i = 0 then []
    else (i, p) :: starts b total fuel (i + (b i).toNat) (descriptor b i p).1

/-- The endpoint at `i` is taken as the one of the keyboard or as the fallback. -/
def Chosen (b : Nat → UInt8) (i : Nat) (p : Parse) : Prop :=
  (b (i + 2) &&& 0x80 ≠ 0 ∧ p.got = false ∧ p.curClass = 3) ∧
    (p.curSub = 1 ∧ p.curProto = 1 ∨ p.fb.id = 0 ∧ b (i + 3) &&& 3 = 3)

instance (b : Nat → UInt8) (i : Nat) (p : Parse) : Decidable (Chosen b i p) :=
  inferInstanceAs (Decidable (_ ∧ _))

/-- How many bytes of a descriptor the loop reads up to. -/
def fieldsEnd (b : Nat → UInt8) (i : Nat) (p : Parse) : Nat :=
  if b (i + 1) = 4 then 8
  else if b (i + 1) = 0x21 then 9
  else if b (i + 1) = 5 then if Chosen b i p then 7 else 6
  else 2

/-- The descriptor has all fields that are read, and they lie before the end. -/
def Complete (b : Nat → UInt8) (total : Nat) (d : Nat × Parse) : Prop :=
  fieldsEnd b d.1 d.2 ≤ (b d.1).toNat ∧ d.1 + fieldsEnd b d.1 d.2 ≤ total

/-- Both transfers that are made have succeeded or ended with a short packet. -/
def Accepted (cc cc2 : UInt8) (first : Nat → UInt8) : Prop :=
  (cc = 1 ∨ cc = 13) ∧ (64 < wTotalLength first → cc2 = 1 ∨ cc2 = 13)

/-- A read of a byte of its descriptor, below the total length. A length byte of 0 is the end
of the list and not a descriptor. -/
def Within (b : Nat → UInt8) (total : Nat) (r : Nat × Nat) : Prop :=
  r.2 < total ∧ (b r.1 ≠ 0 → r.2 < r.1 + (b r.1).toNat)

variable {b : Nat → UInt8} {total i : Nat}

theorem fieldsEnd_bounds (p : Parse) : 2 ≤ fieldsEnd b i p ∧ fieldsEnd b i p ≤ 9 := by
  unfold fieldsEnd
  split_ifs <;> omega

theorem descriptor_endpoint (p : Parse) (htype : b (i + 1) = 5) : (descriptor b i p).2 =
    [i + 4, i + 5, i + 2, i + 3] ++ if Chosen b i p then [i + 6] else [] := by
  rw [descriptor, htype, if_neg (by decide), if_neg (by decide), if_pos rfl]
  dsimp only
  split_ifs with hboot hc hback hc hc
  · rfl
  · exact absurd ⟨hboot.1, .inl hboot.2⟩ hc
  · rfl
  · exact absurd ⟨hback.1, .inr hback.2⟩ hc
  · exact (hc.2.elim (fun h => hboot ⟨hc.1, h⟩) fun h => hback ⟨hc.1, h⟩).elim
  · rfl

theorem fieldsEnd_endpoint (p : Parse) (htype : b (i + 1) = 5) :
    fieldsEnd b i p = if Chosen b i p then 7 else 6 := by
  unfold fieldsEnd
  rw [htype]
  rfl

/-- The last byte that is read, and that it is the last. -/
theorem reads_upto (p : Parse) : i + (fieldsEnd b i p - 1) ∈ i :: (i + 1) :: (descriptor b i p).2 ∧
    ∀ x ∈ i :: (i + 1) :: (descriptor b i p).2, x < i + fieldsEnd b i p := by
  by_cases htype : b (i + 1) = 5
  · rw [descriptor_endpoint p htype, fieldsEnd_endpoint p htype]
    split_ifs <;> simp
  · unfold descriptor fieldsEnd
    dsimp only
    split_ifs <;> simp

theorem reads_within_iff (p : Parse) (hzero : b i ≠ 0) :
    (∀ x ∈ i :: (i + 1) :: (descriptor b i p).2, Within b total (i, x)) ↔
      Complete b total (i, p) := by
  obtain ⟨hlast, hupto⟩ := reads_upto (b := b) (i := i) p
  have hpos := (fieldsEnd_bounds (b := b) (i := i) p).1
  constructor
  · intro hall
    obtain ⟨htotal, hlen⟩ := hall _ hlast
    have hlen : i + (fieldsEnd b i p - 1) < i + (b i).toNat := hlen hzero
    exact ⟨show fieldsEnd b i p ≤ (b i).toNat by omega, show i + fieldsEnd b i p ≤ total by omega⟩
  · intro ⟨hlen, htotal⟩ x hx
    have hx := hupto x hx
    exact ⟨Nat.lt_of_lt_of_le hx htotal,
      fun _ => Nat.lt_of_lt_of_le hx (Nat.add_le_add_left hlen i)⟩

theorem descriptors_reads (htotal : total ≤ 4096) (fuel : Nat) (hi : i < total + 256)
    (hfuel : total + 256 ≤ i + fuel) (p : Parse) :
    ∃ p' reads, descriptors b total fuel i p = some (p', reads) ∧
      (∀ r ∈ reads, r.2 < total + 7) ∧
        ((∀ r ∈ reads, Within b total r) ↔
          ∀ d ∈ starts b total fuel i p, Complete b total d) := by
  induction fuel generalizing i p with
  | zero => omega
  | succ fuel ih =>
    rw [descriptors, starts]
    by_cases hend : total ≤ i + 1
    · exact ⟨p, [], if_pos hend, by simp, by simp [hend]⟩
    rw [if_neg hend]
    by_cases hzero : b i = 0
    · refine ⟨p, _, if_pos hzero, ?_, ?_⟩
      · simp only [forall_mem_cons]
        exact ⟨by omega, by omega, by simp⟩
      · rw [if_pos (.inr hzero)]
        refine iff_of_true ?_ (by simp)
        simp only [forall_mem_cons, Within, hzero, ne_eq, not_true_eq_false, false_implies,
          and_true]
        exact ⟨by omega, by omega, by simp⟩
    · have hlt := (b i).toNat_lt
      have hpos : (b i).toNat ≠ 0 := fun hz => hzero (UInt8.toNat_inj.mp hz)
      have hupto := (reads_upto (b := b) (i := i) p).2
      have hnine := (fieldsEnd_bounds (b := b) (i := i) p).2
      obtain ⟨p', reads, hrun, hnear, hwithin⟩ :=
        ih (i := i + (b i).toNat) (by omega) (by omega) (descriptor b i p).1
      refine ⟨p', (i :: (i + 1) :: (descriptor b i p).2).map (Prod.mk i) ++ reads, ?_, ?_, ?_⟩
      · rw [if_neg hzero, Nat.mod_eq_of_lt (by omega)]
        dsimp only
        rw [hrun]
        rfl
      · intro r hr
        rcases mem_append.mp hr with hr | hr
        · obtain ⟨x, hx, rfl⟩ := mem_map.mp hr
          have := hupto x hx
          show x < total + 7
          omega
        · exact hnear r hr
      · rw [if_neg (by simp [hend, hzero]), forall_mem_append, forall_mem_map, reads_within_iff p hzero,
          forall_mem_cons, hwithin]

/-- For all contents of the page and all answers of the device the function returns and reads
at most 7 bytes behind the total length. Each read is of a byte of its descriptor and below the
total length if and only if a transfer has failed or every descriptor that the loop comes to is
complete. -/
theorem config_reads_within (cc cc2 : UInt8) (first second : Nat → UInt8) (g : Config) :
    ∃ g' reads, xhciGetConfigDescriptor cc cc2 first second g = some (g', reads) ∧
      (∀ r ∈ reads, r.2 < wTotalLength first + 7) ∧
        ((∀ r ∈ reads, Within (configBytes first second) (wTotalLength first) r) ↔
          (Accepted cc cc2 first →
            ∀ d ∈ starts (configBytes first second) (wTotalLength first)
                (wTotalLength first + 256) 0 (firstParse (configBytes first second) g),
              Complete (configBytes first second) (wTotalLength first) d)) := by
  have htotal : wTotalLength first ≤ 4096 := by
    unfold wTotalLength
    dsimp only
    split_ifs <;> omega
  unfold xhciGetConfigDescriptor Accepted
  dsimp only
  split
  · exact ⟨g, [], rfl, by simp, by simp; tauto⟩
  split
  · exact ⟨g, [], rfl, by simp, by simp; tauto⟩
  obtain ⟨p', reads, hrun, hnear, hwithin⟩ := descriptors_reads (b := configBytes first second)
    (i := 0) htotal (wTotalLength first + 256) (by omega) (by omega)
    (firstParse (configBytes first second) g)
  rw [firstParse] at hrun
  rw [hrun]
  refine ⟨_, reads, rfl, hnear, hwithin.trans ?_⟩
  rw [forall_prop_of_true]
  tauto

/-- An interface descriptor of 2 bytes in place of the configuration, with total length 2. -/
def shortInterface (i : Nat) : UInt8 := if i = 1 then 4 else if i = 0 ∨ i = 2 then 2 else 0

theorem short_interface_read_past : wTotalLength shortInterface = 2 ∧ shortInterface 0 = 2 ∧
    (xhciGetConfigDescriptor 1 1 shortInterface shortInterface
      ⟨1, 0, 0, 0, ⟨0, 0, 8, 0xFF, 10⟩⟩).map (·.2) =
        some [(0, 0), (0, 1), (0, 2), (0, 5), (0, 6), (0, 7)] := by
  decide +kernel

end Crius.Usb
