import Crius.Ext2.Volume

/-!
# Bytes, words and blocks

What is read from a buffer or a disk after it was written to, inside and outside of what was
written.
-/
namespace Crius.Ext2

open Function Bytes

namespace Bytes

variable {b b' dst src : Bytes} {o n i v : ℕ}

theorem blit_inside (h : o ≤ i ∧ i < o + n) : blit dst o src n i = src (i - o) := if_pos h

theorem blit_outside (h : i < o ∨ o + n ≤ i) : blit dst o src n i = dst i := if_neg (by omega)

@[simp]
theorem shift_apply : shift b o i = b (o + i) := rfl

theorem put16_outside (h : i < o ∨ o + 2 ≤ i) : put16 b o v i = b i := by
  unfold put16 put8
  rw [update_of_ne (by omega), update_of_ne (by omega)]

theorem put32_outside (h : i < o ∨ o + 4 ≤ i) : put32 b o v i = b i := by
  unfold put32
  rw [put16_outside (by omega), put16_outside (by omega)]

theorem u16At_congr (h : ∀ i, o ≤ i → i < o + 2 → b i = b' i) : u16At b o = u16At b' o := by
  unfold u16At
  rw [h o (by omega) (by omega), h (o + 1) (by omega) (by omega)]

theorem u32At_congr (h : ∀ i, o ≤ i → i < o + 4 → b i = b' i) : u32At b o = u32At b' o := by
  unfold u32At
  rw [u16At_congr fun i h1 h2 => h i h1 (by omega),
    u16At_congr fun i h1 h2 => h i (by omega) (by omega)]

/-- Words at two places with the same four bytes. -/
theorem u32At_eq {o' : ℕ} (h : ∀ i < 4, b (o + i) = b' (o' + i)) : u32At b o = u32At b' o' := by
  have h0 : b o = b' o' := h 0 (by omega)
  have h2 : b (o + 2) = b' (o' + 2) := h 2 (by omega)
  have h3 : b (o + 2 + 1) = b' (o' + 2 + 1) := h 3 (by omega)
  unfold u32At u16At
  rw [h0, h 1 (by omega), h2, h3]

theorem u16At_lt (b : Bytes) (o : ℕ) : u16At b o < 2 ^ 16 := by
  have hlow := (b o).toNat_lt
  have hhigh := (b (o + 1)).toNat_lt
  unfold u16At
  omega

theorem u16At_put16 (b : Bytes) (o v : ℕ) : u16At (put16 b o v) o = v % 2 ^ 16 := by
  have hlow : put16 b o v o = UInt8.ofNat v := by
    rw [put16, put8, update_of_ne (by omega), put8, update_self]
  have hhigh : put16 b o v (o + 1) = UInt8.ofNat (v / 2 ^ 8) := by
    rw [put16, put8, update_self]
  rw [u16At, hlow, hhigh, UInt8.toNat_ofNat', UInt8.toNat_ofNat']
  omega

theorem u32At_put32 (b : Bytes) (o v : ℕ) : u32At (put32 b o v) o = v % 2 ^ 32 := by
  have hlow : u16At (put32 b o v) o = v % 2 ^ 16 := by
    rw [← u16At_put16 b o v]
    apply u16At_congr
    intro i h1 h2
    rw [put32, put16_outside (by omega)]
  have hhigh : u16At (put32 b o v) (o + 2) = v / 2 ^ 16 % 2 ^ 16 := by
    rw [put32, u16At_put16]
  rw [u32At, hlow, hhigh]
  omega

theorem u32At_put32_of_ne {o' : ℕ} (h : o' + 4 ≤ o ∨ o + 4 ≤ o') :
    u32At (put32 b o v) o' = u32At b o' := by
  apply u32At_congr
  intro i h1 h2
  exact put32_outside (by omega)

end Bytes

/-! ## Fields of an inode -/

variable {inode : Bytes} {j k v : ℕ}

theorem iBlock_setBlock (inode : Bytes) (k v : ℕ) : iBlock (setBlock inode k v) k = v % 2 ^ 32 :=
  u32At_put32 _ _ _

theorem iBlock_setBlock_of_ne (h : j ≠ k) : iBlock (setBlock inode k v) j = iBlock inode j :=
  u32At_put32_of_ne (by omega)

/-! ## Blocks of a disk -/

/-- Word `k` of a block. -/
def wordAt (disk : Bytes) (bs block k : ℕ) : ℕ := disk.u32At (block * bs + 4 * k)

/-- A place in a block lies in no other one. -/
theorem outside_block {bs b b' i : ℕ} (hne : b ≠ b') (hi : b * bs ≤ i ∧ i < b * bs + bs) :
    i < b' * bs ∨ b' * bs + bs ≤ i := by
  rcases Nat.lt_or_gt_of_ne hne with hlt | hgt
  · have h := Nat.mul_le_mul_right bs (Nat.succ_le_iff.mpr hlt)
    rw [Nat.succ_mul] at h
    omega
  · have h := Nat.mul_le_mul_right bs (Nat.succ_le_iff.mpr hgt)
    rw [Nat.succ_mul] at h
    omega

theorem wordAt_blit_of_ne {disk buf : Bytes} {bs b b' : ℕ} (hne : b ≠ b') (hk : 4 * k + 4 ≤ bs) :
    wordAt (disk.blit (b' * bs) buf bs) bs b k = wordAt disk bs b k := by
  apply u32At_congr
  intro i h1 h2
  exact blit_outside (outside_block hne (by omega))

theorem wordAt_blit {disk buf : Bytes} {bs b : ℕ} (hk : 4 * k + 4 ≤ bs) :
    wordAt (disk.blit (b * bs) buf bs) bs b k = buf.u32At (4 * k) := by
  apply u32At_eq
  intro i hi
  rw [blit_inside (by omega)]
  congr 1
  omega

end Crius.Ext2
