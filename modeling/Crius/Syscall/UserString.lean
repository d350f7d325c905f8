import Crius.Syscall.UserCopy

/-!
# Checks of user strings

`validate_user_string` looks for the end of a string and tests each page before it reads from it.
-/
namespace Crius.Syscall

open Lib Mm Elf List

/-- The inner loop: the addresses that it reads, and `checked` after it unless a zero byte ends
the search. -/
def scanPage (byte : Nat → UInt8) (addr maxlen checkEnd checked : Nat) : List Nat × Option Nat :=
  let a := (addr + checked) % 2 ^ 64
  if a < checkEnd ∧ checked < maxlen then
    if byte a = 0 then ([a], none)
    else
      let r := scanPage byte addr maxlen checkEnd (checked + 1)
      (a :: r.1, r.2)
  else ([], some checked)
termination_by maxlen - checked

/-- The outer loop. It need not end when `addr + maxlen` wraps, so its rounds are counted. -/
def scanPages (byte : Nat → UInt8) (vm : Vm) (cr3 : Addr) (addr maxlen : Nat) :
    Nat → Nat → Option (Bool × List Nat)
  | 0, _ => none
  | rounds + 1, checked =>
    if checked < maxlen then
      let page := pageOf (addr + checked)
      if userAddrMax ≤ page then some (false, [])
      else if vmmGetPhys vm cr3 page = 0 then some (false, [])
      else
        let checkEnd := min ((addr + maxlen) % 2 ^ 64) (page.toNat + 4096)
        match scanPage byte addr maxlen checkEnd checked with
        | (reads, none) => some (true, reads)
        | (reads, some checked) =>
          (scanPages byte vm cr3 addr maxlen rounds checked).map fun r => (r.1, reads ++ r.2)
    else some (false, [])

/-- `validate_user_string`: its answer and the addresses that it reads. -/
def validateUserString (byte : Nat → UInt8) (vm : Vm) (cr3 : Addr) (rounds str maxlen : Nat) :
    Option (Bool × List Nat) :=
  if str = 0 then some (false, [])
  else if userAddrMax.toNat ≤ str then some (false, [])
  else scanPages byte vm cr3 str maxlen rounds 0

/-- The page of the address is a user page and is mapped. -/
def Mapped (vm : Vm) (cr3 : Addr) (a : Nat) : Prop :=
  pageOf a < userAddrMax ∧ (leafAt vm.mem cr3 (pagePath (pageOf a))).isSome

/-- From `checked` on there is a zero byte, and `P` holds up to it. -/
def Ends (byte : Nat → UInt8) (P : Nat → Prop) (addr maxlen checked : Nat) : Prop :=
  ∃ k, checked ≤ k ∧ k < maxlen ∧ byte (addr + k) = 0 ∧
    ∀ j, checked ≤ j → j ≤ k → P (addr + j)

variable {byte : Nat → UInt8} {P : Nat → Prop} {vm : Vm} {cr3 : Addr}
  {addr maxlen checkEnd checked : Nat}

theorem ends_iff (hlt : checked < maxlen) : Ends byte P addr maxlen checked ↔
    P (addr + checked) ∧
      (byte (addr + checked) = 0 ∨ Ends byte P addr maxlen (checked + 1)) := by
  constructor
  · intro ⟨k, hk, hmax, hzero, hall⟩
    refine ⟨hall checked le_rfl hk, ?_⟩
    by_cases hc : checked = k
    · exact .inl (hc ▸ hzero)
    · exact .inr ⟨k, by omega, hmax, hzero, fun j hj => hall j (by omega)⟩
  · intro ⟨hmapped, h⟩
    rcases h with hzero | ⟨k, hk, hmax, hzero, hall⟩
    · refine ⟨checked, le_rfl, hlt, hzero, fun j hj hle => ?_⟩
      rwa [le_antisymm hle hj]
    · refine ⟨k, by omega, hmax, hzero, fun j hj hle => ?_⟩
      rcases hj.eq_or_lt with rfl | hj
      · exact hmapped
      · exact hall j hj hle

theorem scanPage_spec (byte : Nat → UInt8) (h64 : addr + maxlen < 2 ^ 64)
    (hend : checkEnd ≤ addr + maxlen) (hmapped : ∀ a, addr + checked ≤ a → a < checkEnd → P a) :
    (∀ a ∈ (scanPage byte addr maxlen checkEnd checked).1, P a) ∧
      match (scanPage byte addr maxlen checkEnd checked).2 with
      | none => Ends byte P addr maxlen checked
      | some c => checkEnd ≤ addr + c ∧
          (Ends byte P addr maxlen checked ↔ Ends byte P addr maxlen c) := by
  fun_induction scanPage with
  | case1 checked a hin hzero =>
    have ha : a = addr + checked := Nat.mod_eq_of_lt (by omega)
    have hself := hmapped a (by omega) hin.1
    rw [ha] at hzero hself
    exact ⟨by simpa [ha] using hself, (ends_iff hin.2).mpr ⟨hself, .inl hzero⟩⟩
  | case2 checked a hin hzero r ih =>
    have ha : a = addr + checked := Nat.mod_eq_of_lt (by omega)
    have hself := hmapped a (by omega) hin.1
    obtain ⟨hreads, hr⟩ := ih fun a' ha' => hmapped a' (by omega)
    refine ⟨by simpa using ⟨hself, hreads⟩, ?_⟩
    have hstep : Ends byte P addr maxlen checked ↔ Ends byte P addr maxlen (checked + 1) := by
      rw [ends_iff hin.2, ← ha]
      simp [hself, hzero]
    rw [hstep]
    exact hr
  | case3 checked a hout =>
    have ha : addr + checked < 2 ^ 64 → a = addr + checked := Nat.mod_eq_of_lt
    refine ⟨by simp, ?_, Iff.rfl⟩
    omega

/-- A user page is mapped if `vmm_get_phys` finds a frame. -/
theorem mapped_iff (h : NonzeroFrames vm cr3) (a : Nat) :
    Mapped vm cr3 a ↔ ¬userAddrMax ≤ pageOf a ∧ vmmGetPhys vm cr3 (pageOf a) ≠ 0 := by
  rw [BitVec.not_le, Mapped]
  refine and_congr_right fun hlt => ?_
  rw [vmmGetPhys_eq_leafAt h.root (tableIndex_lt hlt)]
  cases hleaf : leafAt vm.mem cr3 (pagePath (pageOf a)) with
  | none => simp
  | some e => simpa using h.leaf _ e hleaf

theorem scanPages_spec (byte : Nat → UInt8) (h : NonzeroFrames vm cr3)
    (h64 : addr + maxlen < 2 ^ 64) (rounds checked : Nat) (henough : maxlen - checked < rounds) :
    ∃ b reads, scanPages byte vm cr3 addr maxlen rounds checked = some (b, reads) ∧
      (b = true ↔ Ends byte (Mapped vm cr3) addr maxlen checked) ∧ ∀ a ∈ reads, Mapped vm cr3 a := by
  induction rounds generalizing checked with
  | zero => omega
  | succ rounds ih =>
    unfold scanPages
    dsimp only
    by_cases hlt : checked < maxlen
    · rw [if_pos hlt]
      by_cases hself : Mapped vm cr3 (addr + checked)
      · obtain ⟨hlow, hphys⟩ := (mapped_iff h _).mp hself
        rw [if_neg hlow, if_neg hphys, Nat.mod_eq_of_lt h64]
        have hpage := pageOf_toNat (a := addr + checked) (by omega)
        have hsame (a : Nat) (ha : addr + checked ≤ a)
            (hlt : a < min (addr + maxlen) ((pageOf (addr + checked)).toNat + 4096)) :
            Mapped vm cr3 a := by
          have heq : pageOf a = pageOf (addr + checked) := by
            apply BitVec.eq_of_toNat_eq
            rw [hpage, pageOf_toNat (by omega)]
            omega
          unfold Mapped
          rwa [heq]
        obtain ⟨hreads, hres⟩ := scanPage_spec byte h64 (min_le_left _ _) hsame
        rcases hscan : scanPage byte addr maxlen
          (min (addr + maxlen) ((pageOf (addr + checked)).toNat + 4096)) checked with ⟨reads, c⟩
        rw [hscan] at hreads hres
        cases c with
        | none => exact ⟨true, reads, rfl, by simpa using hres, hreads⟩
        | some c =>
          obtain ⟨b, reads', heq, hb, hreads'⟩ := ih c (by omega)
          refine ⟨b, reads ++ reads', by simp [heq], hb.trans hres.2.symm, fun a ha => ?_⟩
          exact (mem_append.mp ha).elim (hreads a) (hreads' a)
      · refine ⟨false, [], ?_, by simp [ends_iff hlt, hself], by simp⟩
        rw [mapped_iff h] at hself
        split_ifs with hlow hphys
        · rfl
        · rfl
        · exact absurd ⟨hlow, hphys⟩ hself
    · rw [if_neg hlt]
      refine ⟨false, [], rfl, ?_, by simp⟩
      simp only [Bool.false_eq_true, false_iff]
      intro ⟨k, hk, hmax, _⟩
      omega

/-- In a space whose frames are not zero, `validate_user_ptr` accepts the ranges of user memory
whose pages are present with `PAGE_USER`, and `validate_user_string` ends, accepts the strings that
end before an unmapped page and before `maxlen`, and reads from mapped pages only. -/
theorem user_checks_exact (h : NonzeroFrames vm cr3) :
    (∀ ptr size : Addr, validateUserPtr vm cr3 ptr size = true ↔
      (ptr ≠ 0 ∧ ptr < userAddrMax ∧ ptr.toNat + size.toNat ≤ userAddrMax.toNat) ∧
        ∀ a, ptr.toNat ≤ a → a < ptr.toNat + size.toNat →
          ∃ e, leafAt vm.mem cr3 (pagePath (pageOf a)) = some e ∧ e &&& pageUser ≠ 0) ∧
      ∀ byte str maxlen, str + maxlen < 2 ^ 64 → ∀ rounds > maxlen, ∃ b reads,
        validateUserString byte vm cr3 rounds str maxlen = some (b, reads) ∧
          (b = true ↔ str ≠ 0 ∧
            ∃ k < maxlen, byte (str + k) = 0 ∧ ∀ j ≤ k, Mapped vm cr3 (str + j)) ∧
          ∀ a ∈ reads, Mapped vm cr3 a := by
  constructor
  · intro ptr size
    rw [validateUserPtr, validateRange_iff h, inBounds_iff]
    refine and_congr_right fun hb => ?_
    by_cases hsize : size = 0
    · simp only [hsize, true_or, true_iff]
      intro a ha hlt
      exact absurd hlt (Nat.not_lt.mpr ha)
    · simp only [hsize, false_or, mem_userPages (inBounds_iff.mpr hb) hsize]
      constructor
      · intro hall a ha hlt
        exact hall _ ⟨a, ha, hlt, rfl⟩
      · rintro hall page ⟨a, ha, hlt, rfl⟩
        exact hall a ha hlt
  · intro byte str maxlen h64 rounds hrounds
    unfold validateUserString
    by_cases h0 : str = 0
    · rw [if_pos h0]
      exact ⟨false, [], rfl, by simp [h0], by simp⟩
    rw [if_neg h0]
    split_ifs with hhigh
    · refine ⟨false, [], rfl, ?_, by simp⟩
      simp only [Bool.false_eq_true, false_iff]
      intro ⟨_, k, _, _, hmapped⟩
      have hlt := (hmapped 0 (Nat.zero_le k)).1
      rw [BitVec.lt_def, pageOf_toNat (by omega)] at hlt
      rw [userAddrMax_toNat] at hhigh hlt
      omega
    · obtain ⟨b, reads, heq, hb, hreads⟩ := scanPages_spec byte h h64 rounds 0 (by omega)
      exact ⟨b, reads, heq, by simpa [Ends, h0] using hb, hreads⟩

/-- The string `"aa"` at address 8 of a space with one page. -/
theorem user_checks_exact_onePage :
    validateUserPtr (onePage 7) 0x100000 8 4 = true ∧
      ∃ reads, validateUserString (fun a => if a = 10 then 0 else 97) (onePage 7) 0x100000 101 8 100 =
        some (true, reads) := by
  have hdone : (vmmMapPage 0x100000 0 0x101000 7 bareVm).1 = true := by decide
  obtain ⟨hforest, -, -, hleaf, -⟩ := onePage_spec (by decide) (by decide) hdone
  have hroot := Multiset.mem_singleton_self (0x100000 : Addr)
  have hpage {a : Nat} (ha : a < 4096) : pageOf a = 0 := by
    apply BitVec.eq_of_toNat_eq
    rw [pageOf_toNat (by omega)]
    exact Nat.sub_eq_zero_of_le (Nat.mod_eq_of_lt ha).ge
  obtain ⟨hptr, hstring⟩ := user_checks_exact (nonzeroFrames hforest hroot)
  constructor
  · refine (hptr 8 4).mpr ⟨by decide, fun a _ ha => ?_⟩
    have hlt : a < 12 := ha
    rw [hpage (by omega)]
    exact ⟨_, hleaf, by decide⟩
  · obtain ⟨b, reads, heq, hb, -⟩ := hstring (fun a => if a = 10 then 0 else 97) 8 100 (by decide) 101
      (by decide)
    have htrue : b = true := by
      refine hb.mpr ⟨by decide, 2, by decide, rfl, fun j hj => ?_⟩
      rw [Mapped, hpage (by omega), hleaf]
      exact ⟨by decide, rfl⟩
    exact ⟨reads, by rw [heq, htrue]⟩

end Crius.Syscall
