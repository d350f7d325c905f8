import Crius.Ext2.Refused
import Crius.Ext2.UsedDirs

/-!
# Reading a range of a file

`ext2_read_at` stops at the first block of the range that `get_block_from_inode` does not find,
as if the file ended there. The bytes of a hole are never delivered.
-/
namespace Crius.Ext2

open Abi Yields Option Bytes

/-- The byte of a file at a position, which is zero in a hole. -/
def fileByte (disk : Bytes) (bs : ℕ) (inode : Bytes) (p : ℕ) : UInt8 :=
  if mappedBlock disk bs inode (p / bs) = 0 then 0
  else disk (mappedBlock disk bs inode (p / bs) * bs + p % bs)

/-- The byte at a position of the block that the code finds. -/
def foundByte (disk : Bytes) (bs : ℕ) (inode : Bytes) (p : ℕ) : UInt8 :=
  disk (foundBlock disk bs inode (p / bs) * bs + p % bs)

/-- `ext2_read_at` delivers `n` bytes of the file, those from `offset` on. -/
def Delivers (g : Geo) (v : Vol) (ino : ℕ) (inode : Bytes) (offset count : ℕ) (buf : Bytes)
    (n : ℕ) : Prop :=
  ∃ buf' v' t, readAt ino offset count buf g v = some (((n : ℤ), buf'), v', t) ∧
    ∀ i < n, buf' i = fileByte v.disk g.blockSize inode (offset + i)

/-- A block that is mapped is found. -/
theorem foundBlock_of_mapped {disk inode : Bytes} {bs l : ℕ} (hbs : 0 < bs / 4)
    (h : mappedBlock disk bs inode l ≠ 0) :
    foundBlock disk bs inode l = mappedBlock disk bs inode l := by
  unfold foundBlock mappedBlock at *
  cases hpath : blockPath bs l with
  | none => rfl
  | some p =>
    obtain ⟨r, ks⟩ := p
    simp only [hpath] at h
    apply follow_eq_followMap (fun _ _ _ _ => rfl)
    · exact fun k hk => index_fits ((blockPath_node hbs hpath).1.2.2 k hk)
    · intro ks1 k ks2 heq hzero
      rw [heq, followMap_append, hzero, followMap_zero] at h
      exact h rfl

/-- A loop that has got to `pos` goes on to `n`: to the end of the range or to a block that is
not found. It delivers the blocks that it finds. -/
theorem Healthy.readLoop {g : Geo} {v : Vol} (h : Healthy g v) (inode : Bytes) (offset : ℕ)
    {count : ℕ} (hend : offset + count ≤ 2 ^ 32) (fuel : ℕ) {pos : ℕ} (hpos : pos ≤ count)
    (hfuel : count - pos ≤ fuel) (blockBuf buf : Bytes) :
    ∃ n buf', Yields (readLoop inode count fuel pos (offset + pos) blockBuf buf) g v
        (some n, buf') v ∧
      pos ≤ n ∧ n ≤ count ∧ (∀ i < pos, buf' i = buf i) ∧
      (∀ i, pos ≤ i → i < n → foundBlock v.disk g.blockSize inode ((offset + i) / g.blockSize) ≠ 0 ∧
        buf' i = foundByte v.disk g.blockSize inode (offset + i)) ∧
      (n < count → foundBlock v.disk g.blockSize inode ((offset + n) / g.blockSize) = 0) := by
  induction fuel generalizing pos blockBuf buf with
  | zero =>
    exact ⟨pos, buf, Yields.pure, Nat.le_refl _, hpos, fun _ _ => rfl, by omega, by omega⟩
  | succ fuel ih =>
    unfold Ext2.readLoop
    by_cases hdone : count ≤ pos
    · exact ⟨pos, buf, Yields.ite_pos hdone Yields.pure, Nat.le_refl _, hpos, fun _ _ => rfl,
        by omega, by omega⟩
    have hbs : 0 < g.blockSize := by rcases h.size with hs | hs | hs <;> omega
    have hmod := Nat.mod_lt (offset + pos) hbs
    have hlogical : u32 ((offset + pos) / g.blockSize) = (offset + pos) / g.blockSize :=
      Nat.mod_eq_of_lt (Nat.lt_of_le_of_lt (Nat.div_le_self _ _) (by omega))
    by_cases hfound : foundBlock v.disk g.blockSize inode ((offset + pos) / g.blockSize) = 0
    · refine ⟨pos, buf, ?_, Nat.le_refl _, hpos, fun _ _ => rfl, by omega, fun _ => hfound⟩
      apply Yields.ite_neg hdone
      apply Yields.read
      apply Yields.bind (Yields.div hbs.ne')
      rw [hlogical]
      apply Yields.bind (h.getBlockFromInode inode _)
      exact Yields.ite_pos hfound Yields.pure
    · generalize hchunk : min (g.blockSize - (offset + pos) % g.blockSize) (count - pos) = chunk
      have hplace {i : ℕ} (hi : i < chunk) : (offset + (pos + i)) / g.blockSize =
          (offset + pos) / g.blockSize ∧
          (offset + (pos + i)) % g.blockSize = (offset + pos) % g.blockSize + i := by
        have hp := Nat.div_add_mod (offset + pos) g.blockSize
        rw [Nat.div_mod_unique hbs]
        omega
      generalize hblock : blockBuf.blit 0 (v.disk.shift (foundBlock v.disk g.blockSize inode
        ((offset + pos) / g.blockSize) * g.blockSize)) g.blockSize = block
      obtain ⟨n, buf', hloop, hn, hcount, hkeep, hread, hstop⟩ :=
        ih (show pos + chunk ≤ count by omega) (by omega) block
          (buf.blit pos (block.shift ((offset + pos) % g.blockSize)) chunk)
      refine ⟨n, buf', ?_, by omega, hcount, ?_, ?_, hstop⟩
      · apply Yields.ite_neg hdone
        apply Yields.read
        apply Yields.bind (Yields.div hbs.ne')
        rw [hlogical]
        dsimp only
        rw [hchunk]
        apply Yields.bind (h.getBlockFromInode inode _)
        apply Yields.ite_neg hfound
        apply Yields.bind (h.working.readBlock _ _)
        rw [hblock, Nat.add_assoc]
        exact hloop
      · intro i hi
        rw [hkeep i (by omega), blit_outside (by omega)]
      · intro i hi hin
        by_cases hlater : pos + chunk ≤ i
        · exact hread i hlater hin
        · obtain ⟨j, rfl⟩ : ∃ j, i = pos + j := ⟨i - pos, by omega⟩
          have hj : j < chunk := by omega
          obtain ⟨hdiv, hrem⟩ := hplace hj
          refine ⟨by rwa [hdiv], ?_⟩
          rw [hkeep _ (by omega), blit_inside (by omega), shift_apply,
            ← hblock, blit_inside (by omega), shift_apply, foundByte, hdiv, hrem]
          congr 1
          omega

theorem asInt_eq_iff {n want : ℕ} (hn : n ≤ want) (hwant : want < 2 ^ 32) :
    asInt n = want ↔ n = want ∧ want < 2 ^ 31 := by
  unfold asInt Int.bmod
  dsimp only
  split <;> omega

/-- On a volume on which nothing fails, for every regular file, offset and count: the read delivers
the whole range, up to the end of the file, exactly if the range is shorter than 2 GiB and has no
hole. Apart from that it does so by chance, where a byte in a hole is read from a block that the code
has found behind a missing table, and is zero there. -/
theorem delivers_iff (g : Geo) (v : Vol) (ino : ℕ) (inode : Bytes) (h : Healthy g v)
    (hino : ∃ v₁ t, readInode ino g v = some (some inode, v₁, t))
    (hfile : fileType inode = sIfreg) (offset count : ℕ) (buf : Bytes) :
    Delivers g v ino inode offset count buf (min count (iSize inode - offset)) ↔
      min count (iSize inode - offset) < 2 ^ 31 ∧ ∀ i < min count (iSize inode - offset),
        mappedBlock v.disk g.blockSize inode ((offset + i) / g.blockSize) ≠ 0 ∨
          foundBlock v.disk g.blockSize inode ((offset + i) / g.blockSize) ≠ 0 ∧
            foundByte v.disk g.blockSize inode (offset + i) = 0 := by
  obtain ⟨v₁, t1, hino⟩ := hino
  have hv1 : v₁ = { v with clock := v₁.clock } := Steady.later hino
  have hafter {k : Option Bytes → M (ℤ × Bytes)} {r : ℤ × Bytes}
      (hk : Yields (k (some inode)) g v r v) :
      ∃ v' t, (readInode ino >>= k) g v = some (r, v', t) := by
    obtain ⟨c, t, hrun⟩ := hk v₁.clock
    rw [← hv1] at hrun
    exact ⟨_, _, M.bind_eq_some.mpr ⟨_, v₁, t1, t, hino, hrun, rfl⟩⟩
  have hsize : iSize inode < 2 ^ 32 := by
    have hbyte (i : ℕ) := (inode i).toNat_lt
    have h0 := hbyte 4
    have h1 := hbyte (4 + 1)
    have h2 := hbyte (4 + 2)
    have h3 := hbyte (4 + 2 + 1)
    unfold iSize u32At u16At
    omega
  by_cases hpast : iSize inode ≤ offset
  · have hrun : ∃ v' t, readAt ino offset count buf g v = some ((0, buf), v', t) := by
      apply hafter
      apply ite_neg (not_not.mpr hfile)
      exact ite_pos hpast pure
    obtain ⟨v', t, hrun⟩ := hrun
    rw [Nat.sub_eq_zero_of_le hpast, Nat.min_zero]
    exact iff_of_true ⟨buf, v', t, hrun, by simp⟩ (by simp)
  generalize hwant : min count (iSize inode - offset) = want
  obtain ⟨n, buf', hloop, -, hn, -, hread, hstop⟩ := h.readLoop inode offset
    (show offset + want ≤ 2 ^ 32 by omega) want (Nat.zero_le _) (Nat.le_refl _) v.junk buf
  have hrun : ∃ v' t, readAt ino offset count buf g v = some ((asInt n, buf'), v', t) := by
    apply hafter
    apply ite_neg (not_not.mpr hfile)
    apply ite_neg hpast
    rw [hwant]
    apply bind h.working.kmalloc
    exact bind hloop pure
  obtain ⟨v', t, hrun⟩ := hrun
  constructor
  · intro hall
    obtain ⟨buf1, v2, t2, hrun1, hbytes⟩ := hall
    rw [hrun, some.injEq, Prod.mk.injEq, Prod.mk.injEq] at hrun1
    obtain ⟨⟨hret, rfl⟩, -⟩ := hrun1
    obtain ⟨rfl, hlt⟩ := (asInt_eq_iff hn (by omega)).mp hret
    refine ⟨hlt, fun i hi => ?_⟩
    obtain ⟨hfound, hbyte⟩ := hread i (Nat.zero_le i) hi
    rw [hbytes i hi, fileByte] at hbyte
    split at hbyte
    · exact .inr ⟨hfound, hbyte.symm⟩
    · next hmapped => exact .inl hmapped
  · intro hrange
    obtain ⟨hlt, hblocks⟩ := hrange
    have hbs : 0 < g.blockSize / 4 := by
      have := h.perBlock
      omega
    have hfound (i : ℕ) (hi : i < want) :
        foundBlock v.disk g.blockSize inode ((offset + i) / g.blockSize) ≠ 0 := by
      rcases hblocks i hi with hmapped | hchance
      · rwa [foundBlock_of_mapped hbs hmapped]
      · exact hchance.1
    obtain rfl : n = want := by
      by_contra hne
      exact hfound n (by omega) (hstop (by omega))
    refine ⟨buf', v', t, ?_, fun i hi => ?_⟩
    · rw [hrun, (asInt_eq_iff (Nat.le_refl n) (by omega)).mpr ⟨rfl, hlt⟩]
    · rw [(hread i (Nat.zero_le i) hi).2, fileByte]
      split
      · next hzero => exact ((hblocks i hi).resolve_left (not_not.mpr hzero)).2
      · next hmapped => rw [foundByte, foundBlock_of_mapped hbs hmapped]

/-- The volume with a file of three bytes that are all in a hole. -/
def holeVol : Vol := { fileVol with disk := fileVol.disk.put8 6532 3 }

theorem delivers_iff_hole : ∃ inode, iSize inode = 3 ∧
    ¬Delivers fileGeo holeVol 12 inode 0 3 Bytes.zero (min 3 (iSize inode - 0)) := by
  have hread : ((readInode 12 fileGeo holeVol).bind (·.1)).map (fun inode => (fileType inode,
      iSize inode, mappedBlock holeVol.disk 1024 inode 0, foundBlock holeVol.disk 1024 inode 0)) =
      some (sIfreg, 3, 0, 0) := by decide +kernel
  obtain ⟨inode, hread, hinode⟩ := map_eq_some_iff.mp hread
  obtain ⟨r, hread, hr⟩ := bind_eq_some_iff.mp hread
  simp only [Prod.mk.injEq] at hinode
  obtain ⟨hfile, hsize, hmapped, hfound⟩ := hinode
  have hino : ∃ v1 t, readInode 12 fileGeo holeVol = some (some inode, v1, t) :=
    ⟨r.2.1, r.2.2, by rw [hread, ← hr]⟩
  refine ⟨inode, hsize, fun hall => ?_⟩
  have hblocks := ((delivers_iff fileGeo holeVol 12 inode ⟨rfl, rfl, .inl rfl, fun _ => rfl⟩ hino
    hfile 0 3 zero).mp hall).2 0 (by omega)
  rcases hblocks with hb | hb
  · exact hb hmapped
  · exact hb.1 hfound

/-- Nothing is delivered of the three bytes. -/
theorem hole_ends_read : iSize (inodeOn fileGeo holeVol 12) = 3 ∧
    (readAt 12 0 3 Bytes.zero fileGeo holeVol).map (·.1.1) = some 0 := by
  decide +kernel

end Crius.Ext2
