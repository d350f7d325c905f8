import Crius.Ext2.Healthy

/-!
# The inodes of a volume have slots of their own

Where `ext2_read_inode` and `ext2_write_inode` go on the device, for every geometry whose inode
tables do not overlap.
-/
namespace Crius.Ext2

open Bytes

variable {g : Geo} {v : Vol} {i j : ℕ}

/-- `bg_inode_table` of a group. -/
def inodeTable (v : Vol) (group : ℕ) : ℕ := v.bgds.u32At (group * bgdSize + 8)

/-- An inode number of the volume. -/
structure HasInode (g : Geo) (i : ℕ) : Prop where
  pos : 1 ≤ i
  group : (i - 1) / g.inodesPerGroup < g.numGroups

/-- The place of an inode in the table of its group. -/
def inodeOffset (g : Geo) (i : ℕ) : ℕ := (i - 1) % g.inodesPerGroup * g.inodeSize

/-- The block of an inode; the sum has 32 bits. -/
def inodeBlock (g : Geo) (v : Vol) (i : ℕ) : ℕ :=
  u32 (inodeTable v ((i - 1) / g.inodesPerGroup) + inodeOffset g i / g.blockSize)

/-- The first byte of an inode on the device. -/
def inodeSlot (g : Geo) (v : Vol) (i : ℕ) : ℕ :=
  inodeBlock g v i * g.blockSize + inodeOffset g i % g.blockSize

/-- The inode tables of the volume: inodes fill their blocks, as sizes that are powers of two do,
and no block is in the tables of two groups. -/
structure InodeTables (g : Geo) (v : Vol) : Prop where
  blockSize : 0 < g.blockSize
  inodes : 0 < g.inodesPerGroup
  inodeSize : 128 ≤ g.inodeSize
  fills : g.inodeSize ∣ g.blockSize
  small : g.inodesPerGroup * g.inodeSize < 2 ^ 32
  apart : ∀ a < g.numGroups, ∀ b < g.numGroups, a ≠ b →
    ∀ s, s * g.blockSize < g.inodesPerGroup * g.inodeSize →
    ∀ t, t * g.blockSize < g.inodesPerGroup * g.inodeSize →
      u32 (inodeTable v a + s) ≠ u32 (inodeTable v b + t)

theorem inodeSlot_congr {v' : Vol} (h : ∀ a, inodeTable v' a = inodeTable v a) (ino : ℕ) :
    inodeSlot g v' ino = inodeSlot g v ino := by
  unfold inodeSlot inodeBlock
  rw [h]

theorem InodeTables.congr {v' : Vol} (ht : InodeTables g v)
    (h : ∀ a, inodeTable v' a = inodeTable v a) : InodeTables g v' := by
  obtain ⟨h1, h2, h3, h4, h5, h6⟩ := ht
  exact ⟨h1, h2, h3, h4, h5, by simpa only [h] using h6⟩

theorem blit_congr {dst src src' : Bytes} {o n : ℕ} (h : ∀ k < n, src k = src' k) :
    dst.blit o src n = dst.blit o src' n := by
  funext k
  by_cases hk : o ≤ k ∧ k < o + n
  · rw [blit_inside hk, blit_inside hk, h _ (by omega)]
  · rw [blit_outside (by omega), blit_outside (by omega)]

section Block

variable {disk junk x : Bytes} {place offset n size : ℕ} (h : offset + n ≤ size)

include h

/-- A part of a block that was read into a buffer. -/
theorem blit_shift_block :
    zero.blit 0 ((junk.blit 0 (disk.shift place) size).shift offset) n =
      zero.blit 0 (disk.shift (place + offset)) n := by
  apply blit_congr
  intro k hk
  rw [shift_apply, blit_inside (by omega), shift_apply, shift_apply]
  congr 1
  omega

/-- A block that was read, changed in one part and written back. -/
theorem blit_block :
    disk.blit place ((junk.blit 0 (disk.shift place) size).blit offset x n) size =
      disk.blit (place + offset) x n := by
  funext k
  by_cases hk : place ≤ k ∧ k < place + size
  · rw [blit_inside hk]
    by_cases hx : place + offset ≤ k ∧ k < place + offset + n
    · rw [blit_inside (by omega), blit_inside hx]
      congr 1
      omega
    · rw [blit_outside (by omega), blit_inside (by omega), shift_apply, blit_outside (by omega)]
      congr 1
      omega
  · rw [blit_outside (by omega), blit_outside (by omega)]

end Block

namespace InodeTables

variable (ht : InodeTables g v)

include ht

/-- An inode ends before the next one of its table. -/
theorem index_lt {a b : ℕ} (hab : a < b) : a * g.inodeSize + inodeBytes ≤ b * g.inodeSize := by
  have h := Nat.mul_le_mul_right g.inodeSize (Nat.succ_le_iff.mpr hab)
  have hsize := Nat.le_trans (show inodeBytes ≤ 128 by decide) ht.inodeSize
  rw [Nat.succ_mul] at h
  omega

theorem offset_lt (i : ℕ) : inodeOffset g i < g.inodesPerGroup * g.inodeSize := by
  have h := ht.index_lt (Nat.mod_lt (i - 1) ht.inodes)
  have hpos : 0 < inodeBytes := by decide
  unfold inodeOffset
  omega

/-- An inode ends in the block where it starts: its offset and the block size are multiples of
the size of an inode. -/
theorem ends_in_block (i : ℕ) : inodeOffset g i % g.blockSize + inodeBytes ≤ g.blockSize := by
  obtain ⟨m, hm⟩ := ht.fills
  have hmpos : 0 < m := by
    have := ht.blockSize
    rw [hm] at this
    exact Nat.pos_of_mul_pos_left this
  rw [inodeOffset, hm, Nat.mul_comm g.inodeSize m, Nat.mul_mod_mul_right]
  exact ht.index_lt (Nat.mod_lt _ hmpos)

/-- Two inodes in one block are inodes of one group, at different offsets. -/
theorem offsets_apart (hi : HasInode g i) (hj : HasInode g j) (hne : i ≠ j)
    (hblock : inodeBlock g v i = inodeBlock g v j) :
    inodeOffset g i / g.blockSize = inodeOffset g j / g.blockSize ∧
      (inodeOffset g i + inodeBytes ≤ inodeOffset g j ∨
        inodeOffset g j + inodeBytes ≤ inodeOffset g i) := by
  have hoffi := ht.offset_lt i
  have hoffj := ht.offset_lt j
  have hi' := Nat.div_mul_le_self (inodeOffset g i) g.blockSize
  have hj' := Nat.div_mul_le_self (inodeOffset g j) g.blockSize
  have hgroup : (i - 1) / g.inodesPerGroup = (j - 1) / g.inodesPerGroup := by
    by_contra hgroup
    exact ht.apart _ hi.group _ hj.group hgroup _ (by omega) _ (by omega) hblock
  have hindex : (i - 1) % g.inodesPerGroup ≠ (j - 1) % g.inodesPerGroup := by
    intro hindex
    have hsame : i - 1 = j - 1 := by
      rw [← Nat.div_add_mod (i - 1) g.inodesPerGroup, hgroup, hindex, Nat.div_add_mod]
    have := hi.pos
    have := hj.pos
    omega
  constructor
  · have hsmall := ht.small
    have := Nat.div_le_self (inodeOffset g i) g.blockSize
    have := Nat.div_le_self (inodeOffset g j) g.blockSize
    rw [inodeBlock, inodeBlock, hgroup] at hblock
    unfold u32 at hblock
    generalize inodeOffset g i / g.blockSize = s at *
    generalize inodeOffset g j / g.blockSize = t at *
    omega
  · rcases Nat.lt_or_gt_of_ne hindex with hlt | hgt
    · exact .inl (ht.index_lt hlt)
    · exact .inr (ht.index_lt hgt)

theorem slots_apart (hi : HasInode g i) (hj : HasInode g j) (hne : i ≠ j) :
    inodeSlot g v i + inodeBytes ≤ inodeSlot g v j ∨
      inodeSlot g v j + inodeBytes ≤ inodeSlot g v i := by
  have hendi := ht.ends_in_block i
  have hendj := ht.ends_in_block j
  have hnext {a b : ℕ} (hab : a < b) : a * g.blockSize + g.blockSize ≤ b * g.blockSize := by
    rw [← Nat.succ_mul]
    exact Nat.mul_le_mul_right _ hab
  unfold inodeSlot
  rcases Nat.lt_trichotomy (inodeBlock g v i) (inodeBlock g v j) with hlt | heq | hgt
  · have := hnext hlt
    omega
  · obtain ⟨hdiv, hoff⟩ := ht.offsets_apart hi hj hne heq
    have hi' := Nat.div_add_mod (inodeOffset g i) g.blockSize
    have hj' := Nat.div_add_mod (inodeOffset g j) g.blockSize
    rw [hdiv] at hi'
    rw [heq]
    omega
  · have := hnext hgt
    omega

theorem inodePlace (hi : HasInode g i) : Yields (inodePlace i) g v
    (some (inodeBlock g v i, inodeOffset g i % g.blockSize)) v := by
  intro c
  have hgroup := Nat.not_le.mpr hi.group
  have hu : u32 ((i - 1) % g.inodesPerGroup * g.inodeSize) = inodeOffset g i :=
    Nat.mod_eq_of_lt (Nat.lt_trans (ht.offset_lt i) ht.small)
  refine ⟨c, 0, ?_⟩
  rw [inodePlace_apply, if_neg (Nat.ne_of_gt ht.inodes), if_neg hgroup,
    if_neg (Nat.ne_of_gt ht.blockSize), hu]
  rfl

theorem readInode (h : Working g v) (hi : HasInode g i) :
    Yields (readInode i) g v
      (some (zero.blit 0 (v.disk.shift (inodeSlot g v i)) inodeBytes)) v := by
  have hpos := hi.pos
  have hend := ht.ends_in_block i
  unfold Ext2.readInode
  apply Yields.read
  apply Yields.ite_neg (by simp [h.mounted]; omega)
  apply Yields.bind (ht.inodePlace hi)
  apply Yields.bind h.kmalloc
  apply Yields.bind (h.readBlock _ _)
  apply Yields.pure_of_eq
  rw [blit_shift_block hend]
  rfl

theorem writeInode (h : Working g v) (hi : HasInode g i) (x : Bytes) :
    Yields (writeInode i x) g v true
      { v with disk := v.disk.blit (inodeSlot g v i) x inodeBytes } := by
  have hpos := hi.pos
  have hend := ht.ends_in_block i
  unfold Ext2.writeInode
  apply Yields.read
  apply Yields.ite_neg (by simp [h.mounted]; omega)
  apply Yields.bind (ht.inodePlace hi)
  apply Yields.bind h.kmalloc
  apply Yields.bind (h.readBlock _ _)
  have hwrite := h.writeBlock (inodeBlock g v i)
    ((v.junk.blit 0 (v.disk.shift (inodeBlock g v i * g.blockSize)) g.blockSize).blit
      (inodeOffset g i % g.blockSize) x inodeBytes)
  rw [blit_block hend] at hwrite
  exact hwrite

end InodeTables

/-- Writing an inode changes its 124 bytes on the device and nothing that another inode has. -/
theorem writeInode_separate (h : Working g v) (ht : InodeTables g v) (hi : HasInode g i)
    (x : Bytes) : ∃ v', Yields (writeInode i x) g v true v' ∧
      Yields (readInode i) g v' (some (zero.blit 0 x inodeBytes)) v' ∧
      (∀ j, HasInode g j → j ≠ i → ∃ y,
        Yields (readInode j) g v (some y) v ∧ Yields (readInode j) g v' (some y) v') ∧
      v' = { v with disk := v'.disk } ∧
      ∀ p, p < inodeSlot g v i ∨ inodeSlot g v i + inodeBytes ≤ p → v'.disk p = v.disk p := by
  have ht' : InodeTables g { v with disk := v.disk.blit (inodeSlot g v i) x inodeBytes } :=
    ⟨ht.blockSize, ht.inodes, ht.inodeSize, ht.fills, ht.small, ht.apart⟩
  have h' : Working g { v with disk := v.disk.blit (inodeSlot g v i) x inodeBytes } :=
    ⟨h.mounted, h.device, h.sectors, h.oracle⟩
  refine ⟨_, ht.writeInode h hi x, ?_, ?_, rfl, fun p hp => blit_outside hp⟩
  · have hread := ht'.readInode h' hi
    have hx : zero.blit 0 ((v.disk.blit (inodeSlot g v i) x inodeBytes).shift (inodeSlot g v i))
        inodeBytes = zero.blit 0 x inodeBytes := by
      apply blit_congr
      intro k hk
      rw [shift_apply, blit_inside (by omega), Nat.add_sub_cancel_left]
    rw [← hx]
    exact hread
  · intro j hj hne
    have hapart := ht.slots_apart hj hi hne
    have hsame : zero.blit 0 ((v.disk.blit (inodeSlot g v i) x inodeBytes).shift (inodeSlot g v j))
        inodeBytes = zero.blit 0 (v.disk.shift (inodeSlot g v j)) inodeBytes := by
      apply blit_congr
      intro k hk
      rw [shift_apply, blit_outside (by omega), shift_apply]
    refine ⟨_, ht.readInode h hj, ?_⟩
    rw [← hsame]
    exact ht'.readInode h' hj

/-- Two groups of eight inodes, with their tables in neighbouring blocks. -/
def twoGroups : Geo := ⟨true, true, 1024, 8192, 8, 128, 2, 1⟩

def twoTables : Vol := ⟨zero, (zero.put32 8 5).put32 40 6, zero, fun _ => true, 0, zero⟩

theorem writeInode_separate_twoGroups : ∃ v',
    Yields (writeInode 9 (zero.put16 0 sIfreg)) twoGroups twoTables true v' ∧
      v'.disk 6143 = 0 ∧ v'.disk 6268 = 0 := by
  have hworking : Working twoGroups twoTables := ⟨rfl, rfl, by decide, fun _ => rfl⟩
  have hstarts : ∀ a < 2, ∀ b < 2, a ≠ b →
      u32 (inodeTable twoTables a) ≠ u32 (inodeTable twoTables b) := by decide +kernel
  have hone (s : ℕ) (hs : s * 1024 < 8 * 128) : s = 0 := by omega
  have htables : InodeTables twoGroups twoTables := by
    refine ⟨by decide, by decide, by decide, by decide, by decide, ?_⟩
    intro a ha b hb hne s hs t ht
    rw [hone s hs, hone t ht]
    exact hstarts a ha b hb hne
  obtain ⟨v', hwrite, -, -, -, hsame⟩ := writeInode_separate hworking htables
    (i := 9) ⟨by decide, by decide⟩ (zero.put16 0 sIfreg)
  exact ⟨v', hwrite, hsame 6143 (by decide +kernel), hsame 6268 (by decide +kernel)⟩

end Crius.Ext2
