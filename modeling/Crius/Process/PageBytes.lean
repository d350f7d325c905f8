import Crius.Process.ElfExec

/-!
# Pages as bytes

A page is kept as 512 words. What `memcpy` and byte stores do to it is read off byte by byte.
-/
namespace Crius.Elf

open Mm BitVec Nat

theorem extractLsb'_bytes (b : Fin 8 → Byte) (r : Fin 8) :
    (b 7 ++ b 6 ++ b 5 ++ b 4 ++ b 3 ++ b 2 ++ b 1 ++ b 0).extractLsb' (8 * r.val) 8 = b r := by
  obtain ⟨r, hr⟩ := r
  apply eq_of_getLsbD_eq
  intro i hi
  interval_cases r <;>
    simp (disch := omega) only [getLsbD_extractLsb', getLsbD_append, hi, decide_true,
      Bool.true_and, if_pos, if_neg] <;>
    exact congrArg _ (by omega)

/-- A page has the bytes that it was made of. -/
theorem pageByte_ofBytes (f : ℕ → Byte) {k : ℕ} (hk : k < 4096) : pageByte (ofBytes f) k = f k := by
  have hval : (Fin.ofNat 512 (k / 8)).val = k / 8 := mod_eq_of_lt (by omega)
  have hbytes := extractLsb'_bytes (fun r => f (8 * (k / 8) + r.val)) ⟨k % 8, mod_lt _ (by decide)⟩
  rw [pageByte, ofBytes, hval]
  refine Eq.trans hbytes (congrArg f ?_)
  exact div_add_mod k 8

theorem pageByte_copyIn (page : Page) (start len : ℕ) (src : ℕ → Byte) {k : ℕ} (hk : k < 4096) :
    pageByte (copyIn page start len src) k =
      if start ≤ k ∧ k < start + len then src (k - start) else pageByte page k :=
  pageByte_ofBytes _ hk

theorem pageByte_zero (k : ℕ) : pageByte (fun _ => 0) k = 0 := by
  rw [pageByte]
  exact extractLsb'_zero ..

theorem pageByte_update (page : Page) (i : Fin 512) (w : Word) {k : ℕ} (hk : k / 8 ≠ i.val)
    (hlt : k < 4096) : pageByte (Function.update page i w) k = pageByte page k := by
  have hne : Fin.ofNat 512 (k / 8) ≠ i := fun heq => hk (by
    rw [← heq]
    exact (mod_eq_of_lt (by omega : k / 8 < 512)).symm)
  rw [pageByte, Function.update_of_ne hne, pageByte]

/-- Pages with the same bytes in a word have the same word. -/
theorem word_ext {page page' : Page} {i : Fin 512}
    (h : ∀ r < 8, pageByte page' (8 * i.val + r) = pageByte page (8 * i.val + r)) :
    page' i = page i := by
  ext j hj
  have hbyte := congrArg (·.getLsbD (j % 8)) (h (j / 8) (by omega))
  have hword : Fin.ofNat 512 ((8 * i.val + j / 8) / 8) = i := by
    apply Fin.ext
    show (8 * i.val + j / 8) / 8 % 512 = i.val
    omega
  have hoff : 8 * ((8 * i.val + j / 8) % 8) + j % 8 = j := by omega
  have hlt : j % 8 < 8 := mod_lt _ (by decide)
  simp only [pageByte, hword, getLsbD_extractLsb', hlt, decide_true, Bool.true_and, hoff] at hbyte
  simpa [getLsbD_eq_getElem hj] using hbyte

end Crius.Elf
