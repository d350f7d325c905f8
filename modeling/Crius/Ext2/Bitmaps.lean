import Crius.Ext2.UsedDirs

/-!
# The bitmaps on the device

What `ext2_alloc_inode`, `ext2_alloc_block` and `ext2_free_inode` do to the bitmaps, to the
descriptors in memory and to the rest of the device, with any failures of memory and transfers.
-/
namespace Crius.Ext2

open Option Prod Bytes

/-- The first byte of a bitmap; `field` is the offset of its block number in a descriptor. -/
def bitmapAt (g : Geo) (v : Vol) (field group : ℕ) : ℕ :=
  v.bgds.u32At (group * bgdSize + field) * g.blockSize

/-- A bit of a bitmap on the device. -/
def bitAt (g : Geo) (v : Vol) (field group idx : ℕ) : Bool :=
  (v.disk (bitmapAt g v field group + idx / 8)).toNat.testBit (idx % 8)

/-- A free count in a group descriptor. -/
def freeCount (k : BitmapKind) (v : Vol) (group : ℕ) : ℕ :=
  v.bgds.u16At (group * bgdSize + k.freeCount)

/-- The block numbers of the bitmaps and of the tables lie in front of the counts. -/
theorem u32At_count {b : Bytes} {a group off field x : ℕ} (hfield : field ≤ 8)
    (hoff : 12 ≤ off ∧ off ≤ 14) :
    (b.put16 (group * bgdSize + off) x).u32At (a * bgdSize + field) =
      b.u32At (a * bgdSize + field) := by
  apply u32At_congr
  intro i h1 h2
  unfold bgdSize at *
  exact put16_outside (by omega)

/-- A byte with a bit that is set and cleared again. -/
theorem byte_bit : ∀ x < 256, ∀ bit < 8, x.testBit bit = false →
    x + 2 ^ bit < 256 ∧ (x + 2 ^ bit).testBit bit = true := by
  decide +kernel

/-- A byte on which a bit was taken, or not, and is given back. -/
theorem restored {x y : UInt8} {bit : ℕ} (hbit : bit < 8) (hclear : x.toNat.testBit bit = false)
    {set : Bool} (hy : y = if set then UInt8.ofNat (x.toNat + 2 ^ bit) else x) :
    y.toNat.testBit bit = set ∧
      UInt8.ofNat (if y.toNat.testBit bit then y.toNat - 2 ^ bit else y.toNat) = x := by
  obtain ⟨hlt, hset⟩ := byte_bit x.toNat x.toNat_lt bit hbit hclear
  cases set with
  | false =>
    rw [if_neg (by decide)] at hy
    rw [hy, hclear, if_neg (by decide), UInt8.ofNat_toNat]
    exact ⟨rfl, rfl⟩
  | true =>
    rw [if_pos rfl] at hy
    have hnat : y.toNat = x.toNat + 2 ^ bit := by
      rw [hy, UInt8.toNat_ofNat', Nat.mod_eq_of_lt hlt]
    rw [hnat, hset, if_pos rfl, Nat.add_sub_cancel, UInt8.ofNat_toNat]
    exact ⟨rfl, rfl⟩

/-! ## Transfers of blocks -/

section Transfer

variable {g : Geo} {v : Vol} (hbd : g.hasBd = true) (hsectors : 512 ∣ g.blockSize)

include hbd hsectors

theorem readBlock_apply (block : ℕ) (buf : Bytes) : readBlock block buf g v =
    some ((v.oracle v.clock, if v.oracle v.clock then
      buf.blit 0 (v.disk.shift (block * g.blockSize)) g.blockSize else buf),
        { v with clock := v.clock + 1 }, 1) := by
  have hspb : secPerBlock g v = some (g.blockSize / 512, v, 0) := rfl
  unfold readBlock
  rw [M.bind_of_quiet hspb, readSectorsOff_apply hbd, Nat.mul_assoc, Nat.div_mul_cancel hsectors]

theorem writeBlock_apply (block : ℕ) (buf : Bytes) : writeBlock block buf g v =
    some (v.oracle v.clock, { v with
      disk := if v.oracle v.clock then v.disk.blit (block * g.blockSize) buf g.blockSize else v.disk
      clock := v.clock + 1 }, 1) := by
  have hspb : secPerBlock g v = some (g.blockSize / 512, v, 0) := rfl
  unfold writeBlock
  rw [M.bind_of_quiet hspb, writeSectorsOff_apply hbd, Nat.mul_assoc, Nat.div_mul_cancel hsectors]

end Transfer

/-- A block that was read, changed in one byte and written back. -/
theorem blit_put8 {disk buf : Bytes} {block size i x : ℕ} (hi : i < size) :
    disk.blit (block * size) ((buf.blit 0 (disk.shift (block * size)) size).put8 i x) size =
      disk.put8 (block * size + i) x := by
  funext j
  unfold put8
  by_cases hj : block * size ≤ j ∧ j < block * size + size
  · rw [blit_inside hj]
    by_cases hij : j = block * size + i
    · rw [hij, Nat.add_sub_cancel_left, Function.update_self, Function.update_self]
    · rw [Function.update_of_ne (by omega), Function.update_of_ne hij, blit_inside (by omega),
        shift_apply]
      congr 1
      omega
  · rw [blit_outside (by omega), Function.update_of_ne (by omega)]

/-! ## Taking a bit -/

/-- The bit that is taken is a clear one, in the first byte that has one. -/
theorem clearBit_some {bitmap : Bytes} {size i bit : ℕ} (h : clearBit bitmap size = some (i, bit)) :
    i < size ∧ bit < 8 ∧ (bitmap i).toNat.testBit bit = false := by
  unfold clearBit at h
  split at h
  · cases h
  rename_i j hj
  obtain ⟨b, hb, hp⟩ := map_eq_some_iff.mp h
  cases hp
  refine ⟨?_, List.mem_range.mp (List.mem_of_find?_eq_some hb), ?_⟩
  · exact List.mem_range.mp (List.mem_of_find?_eq_some hj)
  · simpa using List.find?_some hb

theorem byte_full : ∀ x < 256, (∀ bit < 8, x.testBit bit = true) → x = 255 := by
  decide +kernel

/-- A bitmap without a clear bit. -/
theorem clearBit_eq_none {bitmap : Bytes} {size : ℕ} :
    clearBit bitmap size = none ↔ ∀ i < size, bitmap i = 0xFF := by
  unfold clearBit
  cases hbyte : (List.range size).find? (fun i => bitmap i ≠ 0xFF) with
  | none => simpa using hbyte
  | some i =>
    have hi := List.mem_range.mp (List.mem_of_find?_eq_some hbyte)
    have hne : bitmap i ≠ 0xFF := by simpa using List.find?_some hbyte
    refine iff_of_false (fun hnone => hne ?_) fun hall => hne (hall i hi)
    have hbits : ∀ bit < 8, (bitmap i).toNat.testBit bit = true := by simpa using hnone
    exact UInt8.toNat.inj (byte_full _ (bitmap i).toNat_lt hbits)

/-- The group has no inode, or no block, to take, or its bitmap is not read: it is the read number
`reads`. -/
def NoBit (k : BitmapKind) (g : Geo) (v : Vol) (reads group : ℕ) : Prop :=
  freeCount k v group = 0 ∨ v.oracle (v.clock + reads) = false ∨
    ∀ i < g.blockSize, v.disk (bitmapAt g v k.block group + i) = 0xFF

/-- The bit is taken: the free count is lowered, and the bit is set on the device, if the write
does not fail. -/
def Takes (k : BitmapKind) (g : Geo) (v : Vol) (group idx : ℕ) (v' : Vol) : Prop :=
  ∃ c, v' = { v with
    bgds := v.bgds.put16 (group * bgdSize + k.freeCount) (dec16 (freeCount k v group))
    disk := if v.oracle c then v.disk.put8 (bitmapAt g v k.block group + idx / 8)
      ((v.disk (bitmapAt g v k.block group + idx / 8)).toNat + 2 ^ (idx % 8)) else v.disk
    clock := v'.clock }

/-- The number of bitmaps that are read for the groups from `i` to `i + j`. -/
def readsBefore (k : BitmapKind) (v : Vol) (i j : ℕ) : ℕ :=
  Nat.count (fun m => freeCount k v (i + m) ≠ 0) j

theorem readsBefore_succ (k : BitmapKind) (v : Vol) (i j : ℕ) : readsBefore k v i (j + 1) =
    (if freeCount k v i = 0 then 0 else 1) + readsBefore k v (i + 1) j := by
  unfold readsBefore
  rw [Nat.count_succ', Nat.add_comm]
  simp only [Nat.add_zero, ite_not, Nat.add_right_comm, Nat.add_assoc]

theorem noBit_later {k : BitmapKind} {g : Geo} {v : Vol} {c reads group : ℕ} :
    NoBit k g { v with clock := v.clock + c } reads group ↔ NoBit k g v (c + reads) group := by
  unfold NoBit
  rw [← Nat.add_assoc]
  rfl

section TakeBit

variable {k : BitmapKind} {g : Geo} {v : Vol} (hbd : g.hasBd = true) (hsectors : 512 ∣ g.blockSize)

include hbd hsectors

/-- The loop goes on to the next group, or takes a bit of this one. -/
theorem takeBit_step {left i n : ℕ} {bitmap : Bytes} {r : Option (ℕ × ℕ)} {v' : Vol}
    (h : takeBit k (left + 1) i bitmap g v = some (r, v', n)) :
    (NoBit k g v 0 i ∧ ∃ bitmap' n', takeBit k left (i + 1) bitmap' g { v with
      clock := v.clock + if freeCount k v i = 0 then 0 else 1 } = some (r, v', n')) ∨
    ¬NoBit k g v 0 i ∧ ∃ idx < 8 * g.blockSize, r = some (i, idx) ∧
      bitAt g v k.block i idx = false ∧ freeCount k v i ≠ 0 ∧ Takes k g v i idx v' := by
  have hcount {w : Vol} : bgdField i k.freeCount g w = some (freeCount k w i, w, 0) := rfl
  rw [takeBit, M.bind_of_quiet hcount] at h
  by_cases hzero : freeCount k v i = 0
  · rw [if_pos hzero] at h
    rw [if_pos hzero]
    exact .inl ⟨.inl hzero, bitmap, n, h⟩
  rw [if_neg hzero, M.get_bind_apply] at h
  rw [if_neg hzero]
  obtain ⟨p, v₁, _, n₂, hread, h⟩ := M.of_bind h
  rw [readBlock_apply hbd hsectors] at hread
  cases hmem : v.oracle v.clock with
  | false =>
    rw [hmem] at hread
    cases hread
    exact .inl ⟨.inr (.inl hmem), _, n₂, h⟩
  | true =>
    rw [hmem] at hread
    cases hread
    simp only [if_true] at h
    rw [M.read_bind_apply] at h
    have hbyte (j : ℕ) (hj : j < g.blockSize) :
        bitmap.blit 0 (v.disk.shift (v.bgds.u32At (i * bgdSize + k.block) * g.blockSize))
          g.blockSize j = v.disk (bitmapAt g v k.block i + j) := by
      rw [blit_inside (by omega), shift_apply, Nat.sub_zero]
      rfl
    cases hclear : clearBit (bitmap.blit 0 (v.disk.shift
        (v.bgds.u32At (i * bgdSize + k.block) * g.blockSize)) g.blockSize) g.blockSize with
    | none =>
      rw [hclear] at h
      refine .inl ⟨.inr (.inr fun j hj => ?_), _, n₂, h⟩
      rw [← hbyte j hj]
      exact clearBit_eq_none.mp hclear j hj
    | some p =>
      obtain ⟨j, bit⟩ := p
      obtain ⟨hj, hbit, hoff⟩ := clearBit_some hclear
      rw [hclear] at h
      obtain ⟨ok, v₂, _, _, hwrite, h⟩ := M.of_bind h
      rw [writeBlock_apply hbd hsectors, blit_put8 hj, hbyte j hj] at hwrite
      cases hwrite
      rw [M.bind_of_quiet hcount] at h
      cases h
      have hdiv : (j * 8 + bit) / 8 = j := by omega
      have hmod : (j * 8 + bit) % 8 = bit := by omega
      rw [hbyte j hj] at hoff
      refine .inr ⟨?_, j * 8 + bit, by omega, rfl, by rwa [bitAt, hdiv, hmod], hzero, ?_⟩
      · intro hno
        rcases hno with hnone | hfail | hfull
        · exact hzero hnone
        · exact absurd (hmem.symm.trans hfail) (by decide)
        · have hset : ∀ bit < 8, (0xFF : UInt8).toNat.testBit bit = true := by decide
          rw [hfull j hj, hset bit hbit] at hoff
          cases hoff
      · refine ⟨v.clock + 1, ?_⟩
        rw [hdiv, hmod]
        rfl

/-- The loop ends without a bit, and nothing has changed. -/
theorem takeBit_none {left i n : ℕ} {bitmap : Bytes} {v' : Vol}
    (h : takeBit k left i bitmap g v = some (none, v', n)) :
    contents v' = contents v ∧ ∀ j < left, NoBit k g v (readsBefore k v i j) (i + j) := by
  induction left generalizing i bitmap v n with
  | zero =>
    rw [takeBit] at h
    exact ⟨Steady.same h, fun j hj => absurd hj (Nat.not_lt_zero j)⟩
  | succ left ih =>
    rcases takeBit_step hbd hsectors h with ⟨hno, bitmap', n', hrest⟩ | ⟨-, idx, -, hr, -⟩
    · obtain ⟨hsame, hlater⟩ := ih hrest
      refine ⟨hsame, fun j hj => ?_⟩
      cases j with
      | zero => exact hno
      | succ j =>
        rw [readsBefore_succ, ← Nat.add_assoc, Nat.add_right_comm]
        exact noBit_later.mp (hlater j (by omega))
    · cases hr

/-- The loop takes a clear bit of a group whose bitmap it has read. -/
theorem takeBit_some {left i n group idx : ℕ} {bitmap : Bytes} {v' : Vol}
    (h : takeBit k left i bitmap g v = some (some (group, idx), v', n)) :
    ∃ j < left, group = i + j ∧ ¬NoBit k g v (readsBefore k v i j) group ∧
      idx < 8 * g.blockSize ∧ bitAt g v k.block group idx = false ∧ freeCount k v group ≠ 0 ∧
      Takes k g v group idx v' := by
  induction left generalizing i bitmap v n with
  | zero =>
    rw [takeBit] at h
    cases h
  | succ left ih =>
    rcases takeBit_step hbd hsectors h with ⟨-, bitmap', n', hrest⟩ | ⟨hbit, idx', hidx, hr, htake⟩
    · obtain ⟨j, hj, rfl, hbit, htake⟩ := ih hrest
      refine ⟨j + 1, by omega, by omega, ?_, htake⟩
      rw [readsBefore_succ]
      exact mt noBit_later.mpr hbit
    · cases hr
      exact ⟨0, by omega, rfl, hbit, hidx, htake⟩

end TakeBit

/-! ## What else is written -/

/-- The bytes of a block. -/
def InBlock (g : Geo) (block i : ℕ) : Prop :=
  block * g.blockSize ≤ i ∧ i < block * g.blockSize + g.blockSize

/-- The superblock and the blocks of the descriptors. -/
def Synced (g : Geo) (i : ℕ) : Prop :=
  1024 ≤ i ∧ i < 2048 ∨
    ∃ m, m * g.blockSize < u32 (g.numGroups * bgdSize) ∧
      InBlock g (u32 (g.firstDataBlock + 1 + m)) i

/-- The code leaves a byte of the device as it is. -/
class Frame {α : Type} (g : Geo) (i : ℕ) (m : M α) : Prop where
  keeps : ∀ {v a v' n}, m g v = some (a, v', n) → v'.disk i = v.disk i

section Frame

variable {α β : Type} {g : Geo} {i : ℕ} {m : M α}

instance (priority := low) [h : Steady contents m] : Frame g i m where
  keeps hrun := congrFun (congrArg (fun c : Bytes × Bytes × Bytes => c.2.2) (h.same hrun)) i

theorem Frame.bind {k : α → M β} (hm : Frame g i m) (hk : ∀ a, Frame g i (k a)) :
    Frame g i (m >>= k) where
  keeps h := by
    obtain ⟨a, v₁, _, _, h₁, h₂⟩ := M.of_bind h
    rw [(hk a).keeps h₂, hm.keeps h₁]

instance {k : α → M β} [hm : Frame g i m] [hk : ∀ a, Frame g i (k a)] : Frame g i (m >>= k) :=
  hm.bind hk

theorem Frame.read {k : Geo → M β} (h : Frame g i (k g)) : Frame g i ((read : M Geo) >>= k) where
  keeps hrun := by
    rw [M.read_bind_apply] at hrun
    exact h.keeps hrun

theorem Frame.modify {u : Vol → Vol} (h : ∀ v, (u v).disk i = v.disk i) :
    Frame g i (modify u : M PUnit) where
  keeps hrun := by rw [← (mk.inj (mk.inj (some.inj hrun)).2).1, h]

theorem Frame.writeSectorsOff {lba count : ℕ} (hi : i < lba * 512 ∨ lba * 512 + count * 512 ≤ i)
    (buf : Bytes) : Frame g i (writeSectorsOff lba count buf) := by
  unfold Ext2.writeSectorsOff
  repeat' first
    | infer_instance
    | exact .modify fun _ => blit_outside hi
    | refine .read ?_
    | refine .bind ?_ fun _ => ?_
    | split

instance (off : ℕ) (u : ℕ → ℕ) : Frame g i (setSbField off u) := .modify fun _ => rfl

instance (group off x : ℕ) : Frame g i (setBgdField group off x) := .modify fun _ => rfl

variable (hsectors : 512 ∣ g.blockSize)

include hsectors

theorem Frame.writeBlock {block : ℕ} (hi : ¬InBlock g block i) (buf : Bytes) :
    Frame g i (writeBlock block buf) := by
  have hplace : block * (g.blockSize / 512) * 512 = block * g.blockSize ∧
      g.blockSize / 512 * 512 = g.blockSize := by
    rw [Nat.mul_assoc, Nat.div_mul_cancel hsectors]
    exact ⟨rfl, rfl⟩
  unfold InBlock at hi
  unfold Ext2.writeBlock secPerBlock
  exact .read (.writeSectorsOff (by rw [hplace.1, hplace.2]; omega) buf)

theorem Frame.syncBgdsLoop {fuel remaining block : ℕ}
    (hi : ∀ m, m * g.blockSize < remaining → ¬InBlock g (u32 (block + m)) i)
    (hblock : block < 2 ^ 32)
    (offset : ℕ) (buf : Bytes) : Frame g i (syncBgdsLoop fuel remaining offset block buf) := by
  induction fuel generalizing remaining offset block buf with
  | zero =>
    unfold Ext2.syncBgdsLoop
    split <;> infer_instance
  | succ fuel ih =>
    by_cases hdone : remaining = 0
    · rw [Ext2.syncBgdsLoop, if_pos hdone]
      infer_instance
    have hhere : ¬InBlock g block i := by
      have := hi 0 (by omega)
      rwa [Nat.add_zero, u32, Nat.mod_eq_of_lt hblock] at this
    have hnext (m : ℕ) (hm : m * g.blockSize < remaining - min remaining g.blockSize) :
        ¬InBlock g (u32 (u32 (block + 1) + m)) i := by
      have := hi (m + 1) (by rw [Nat.succ_mul]; omega)
      have heq : u32 (u32 (block + 1) + m) = u32 (block + (m + 1)) := by
        unfold u32
        omega
      rwa [heq]
    unfold Ext2.syncBgdsLoop
    rw [if_neg hdone]
    repeat' first
      | exact ih hnext (Nat.mod_lt _ (by decide)) _ _
      | exact .writeBlock hsectors hhere _
      | infer_instance
      | refine .read ?_
      | refine .bind ?_ fun _ => ?_
      | split

/-- The counts are written to the superblock and to the descriptors. -/
theorem Frame.sync (hi : ¬Synced g i) : Frame g i syncSuperblock ∧ Frame g i syncBgds := by
  unfold Synced at hi
  constructor
  · unfold syncSuperblock
    repeat' first
      | exact .writeSectorsOff (by omega) _
      | infer_instance
      | refine .read ?_
      | refine .bind ?_ fun _ => ?_
      | split
  · have hblocks (m : ℕ) (hm : m * g.blockSize < u32 (g.numGroups * bgdSize)) :
        ¬InBlock g (u32 (u32 (g.firstDataBlock + 1) + m)) i := by
      have heq : u32 (u32 (g.firstDataBlock + 1) + m) = u32 (g.firstDataBlock + 1 + m) := by
        unfold u32
        omega
      rw [heq]
      exact fun hin => hi (.inr ⟨m, hm, hin⟩)
    unfold syncBgds
    repeat' first
      | exact .syncBgdsLoop hsectors hblocks (Nat.mod_lt _ (by decide)) _ _
      | infer_instance
      | refine .read ?_
      | refine .bind ?_ fun _ => ?_
      | split

end Frame

/-! ## Allocation and release -/

/-- No group has a bit to take, or there is no memory to look for it. -/
def NoneFree (k : BitmapKind) (g : Geo) (v : Vol) : Prop :=
  g.mounted = false ∨ v.oracle v.clock = false ∨
    ∀ group < g.numGroups, NoBit k g v (1 + readsBefore k v 0 group) group

/-- A bit that can be taken. -/
structure FreeBit (k : BitmapKind) (g : Geo) (v : Vol) (group idx : ℕ) : Prop where
  inGroups : group < g.numGroups
  inBitmap : idx < 8 * g.blockSize
  clear : bitAt g v k.block group idx = false
  counted : freeCount k v group ≠ 0

theorem FreeBit.congr {g : Geo} {v v' : Vol} {k : BitmapKind} {group idx : ℕ}
    (hfree : FreeBit k g v' group idx)
    (hblock : bitmapAt g v' k.block group = bitmapAt g v k.block group)
    (hcount : freeCount k v' group = freeCount k v group)
    (hbyte : v'.disk (bitmapAt g v k.block group + idx / 8) =
      v.disk (bitmapAt g v k.block group + idx / 8)) : FreeBit k g v group idx := by
  obtain ⟨h1, h2, h3, h4⟩ := hfree
  refine ⟨h1, h2, ?_, by rwa [← hcount]⟩
  unfold bitAt at h3 ⊢
  rwa [← hbyte, ← hblock]

/-- What an allocation of the bit leaves: besides the bitmap only the counts are written. -/
structure Allocates (k : BitmapKind) (g : Geo) (v : Vol) (group idx : ℕ) (v' : Vol) : Prop where
  free : FreeBit k g v group idx
  bgds : v'.bgds = v.bgds.put16 (group * bgdSize + k.freeCount) (dec16 (freeCount k v group))
  disk : ∃ c, ∀ i, ¬Synced g i → v'.disk i =
    (if v.oracle c then v.disk.put8 (bitmapAt g v k.block group + idx / 8)
      ((v.disk (bitmapAt g v k.block group + idx / 8)).toNat + 2 ^ (idx % 8)) else v.disk) i

instance : Described Vol.bgds where

section Allocation

variable {k : BitmapKind} {g : Geo} {v v' : Vol} {n : ℕ}
  (hbd : g.hasBd = true) (hsectors : 512 ∣ g.blockSize)

include hbd hsectors

/-- The common start of the two allocations. -/
theorem allocate_cases {rest : ℕ → ℕ → M ℕ} {x : ℕ}
    (h : (do
      let g ← read
      if !g.mounted then return 0
      else
        match ← kmalloc with
        | none => return 0
        | some bitmap =>
          match ← takeBit k g.numGroups 0 bitmap with
          | none => return 0
          | some (group, bit) => rest group bit : M ℕ) g v = some (x, v', n)) :
    x = 0 ∧ contents v' = contents v ∧ NoneFree k g v ∨
    ¬NoneFree k g v ∧ ∃ group idx v₁ n₁, rest group idx g v₁ = some (x, v', n₁) ∧
      FreeBit k g v group idx ∧ Takes k g v group idx v₁ := by
  rw [M.read_bind_apply] at h
  cases hmounted : g.mounted with
  | false =>
    simp only [hmounted, Bool.not_false, if_true] at h
    cases h
    exact .inl ⟨rfl, rfl, .inl hmounted⟩
  | true =>
    simp only [hmounted, Bool.not_true, Bool.false_eq_true, if_false] at h
    rw [M.bind_of_quiet kmalloc_apply] at h
    cases hmem : v.oracle v.clock with
    | false =>
      rw [hmem] at h
      cases h
      exact .inl ⟨rfl, rfl, .inr (.inl hmem)⟩
    | true =>
      rw [hmem] at h
      obtain ⟨r, v₁, n₁, n₂, htake, h⟩ := M.of_bind h
      have hlater {group : ℕ} : NoBit k g { v with clock := v.clock + 1 }
          (readsBefore k { v with clock := v.clock + 1 } 0 group) group ↔
          NoBit k g v (1 + readsBefore k v 0 group) group := noBit_later
      cases r with
      | none =>
        cases h
        obtain ⟨hsame, hnone⟩ := takeBit_none hbd hsectors htake
        refine .inl ⟨rfl, hsame, .inr (.inr fun group hgroup => hlater.mp ?_)⟩
        have hno := hnone group hgroup
        rwa [Nat.zero_add] at hno
      | some p =>
        obtain ⟨group, idx⟩ := p
        obtain ⟨j, hj, hgroup, hbit, hidx, hclear, hcount, htakes⟩ :=
          takeBit_some hbd hsectors htake
        obtain rfl : group = j := by omega
        refine .inr ⟨?_, group, idx, v₁, n₂, h, ⟨hj, hidx, hclear, hcount⟩, htakes⟩
        intro hnone
        rcases hnone with hoff | hmem' | hall
        · exact absurd (hmounted.symm.trans hoff) (by decide)
        · exact absurd (hmem.symm.trans hmem') (by decide)
        · exact hbit (hlater.mpr (hall group hj))

omit hbd in
/-- The counts are written behind a bit that was taken. -/
theorem Takes.allocates {group idx off x y : ℕ} {u : ℕ → ℕ} {v₁ : Vol}
    (hfree : FreeBit k g v group idx) (htakes : Takes k g v group idx v₁)
    (h : (do
      setSbField off u
      syncSuperblock
      syncBgds
      return x : M ℕ) g v₁ = some (y, v', n)) : y = x ∧ Allocates k g v group idx v' := by
  obtain ⟨c, hv₁⟩ := htakes
  have hbgds : v'.bgds = v₁.bgds := Steady.same h
  have hdisk (i : ℕ) (hi : ¬Synced g i) : v'.disk i = v₁.disk i := by
    obtain ⟨hsb, htable⟩ := Frame.sync hsectors hi
    exact Frame.keeps h
  obtain ⟨_, v₂, _, _, -, h⟩ := M.of_bind h
  obtain ⟨_, v₃, _, _, -, h⟩ := M.of_bind h
  obtain ⟨_, v₄, _, _, -, h⟩ := M.of_bind h
  cases h
  exact ⟨rfl, hfree, by rw [hbgds, hv₁], c, fun i hi => by rw [hdisk i hi, hv₁]⟩

theorem allocInode_file {ino : ℕ} (h : allocInode false g v = some (ino, v', n)) :
    ino = 0 ∧ contents v' = contents v ∨
    ∃ group idx, ino = u32 (group * g.inodesPerGroup + idx + 1) ∧
      Allocates inodeBitmap g v group idx v' := by
  unfold allocInode at h
  rcases allocate_cases hbd hsectors h with ⟨hzero, hsame, -⟩ |
    ⟨-, group, idx, v₁, n₁, hrest, hfree, htakes⟩
  · exact .inl ⟨hzero, hsame⟩
  · exact .inr ⟨group, idx, htakes.allocates hsectors hfree hrest⟩

theorem allocBlock_cases {block : ℕ} (h : allocBlock g v = some (block, v', n)) :
    block = 0 ∧ contents v' = contents v ∨
    ∃ group idx, block = u32 (g.firstDataBlock + group * g.blocksPerGroup + idx) ∧
      Allocates blockBitmap g v group idx v' := by
  unfold allocBlock at h
  rcases allocate_cases hbd hsectors h with ⟨hzero, hsame, -⟩ |
    ⟨-, group, idx, v₁, n₁, hrest, hfree, htakes⟩
  · exact .inl ⟨hzero, hsame⟩
  · exact .inr ⟨group, idx, htakes.allocates hsectors hfree hrest⟩

/-- A bit is cleared on the device. -/
def cleared (g : Geo) (v : Vol) (k : BitmapKind) (group idx : ℕ) : Bytes :=
  v.disk.put8 (bitmapAt g v k.block group + idx / 8)
    (if bitAt g v k.block group idx then
      (v.disk (bitmapAt g v k.block group + idx / 8)).toNat - 2 ^ (idx % 8)
    else (v.disk (bitmapAt g v k.block group + idx / 8)).toNat)

/-- A release fails without memory or without the bitmap. Otherwise the free count is raised, and
the bit is cleared, if the write does not fail. -/
theorem dropBit_cases {group idx : ℕ} {ok : Bool} (hgroup : group < g.numGroups)
    (hidx : idx < 8 * g.blockSize) (h : dropBit k group idx g v = some (ok, v', n)) :
    (v.oracle v.clock = false ∨ v.oracle (v.clock + 1) = false) ∧ contents v' = contents v ∨
    v.oracle v.clock = true ∧ v.oracle (v.clock + 1) = true ∧
      v'.bgds = v.bgds.put16 (group * bgdSize + k.freeCount) (freeCount k v group + 1) ∧
      ∀ i, ¬Synced g i → v'.disk i =
        (if v.oracle (v.clock + 2) then cleared g v k group idx else v.disk) i := by
  unfold dropBit at h
  rw [M.read_bind_apply, if_neg (Nat.not_le.mpr hgroup), M.bind_of_quiet kmalloc_apply] at h
  cases hmem : v.oracle v.clock with
  | false =>
    rw [hmem] at h
    cases h
    exact .inl ⟨.inl rfl, rfl⟩
  | true =>
    rw [hmem] at h
    simp only [if_true] at h
    rw [M.get_bind_apply] at h
    obtain ⟨p, v₁, _, _, hread, h⟩ := M.of_bind h
    rw [readBlock_apply hbd hsectors] at hread
    cases hnext : v.oracle (v.clock + 1) with
    | false =>
      dsimp only at hread
      rw [hnext] at hread
      cases hread
      cases h
      exact .inl ⟨.inr rfl, rfl⟩
    | true =>
      dsimp only at hread
      rw [hnext] at hread
      cases hread
      simp only [if_true] at h
      have hbyte : v.junk.blit 0 (v.disk.shift (v.bgds.u32At (group * bgdSize + k.block) *
          g.blockSize)) g.blockSize (idx / 8) = v.disk (bitmapAt g v k.block group + idx / 8) := by
        rw [blit_inside (by omega), shift_apply, Nat.sub_zero]
        rfl
      obtain ⟨ok', v₂, _, _, hwrite, h⟩ := M.of_bind h
      rw [writeBlock_apply hbd hsectors, blit_put8 (by omega), hbyte] at hwrite
      have hbgds : v'.bgds = (v₂.bgds.put16 (group * bgdSize + k.freeCount)
          (freeCount k v₂ group + 1)) := by
        have hcount : bgdField group k.freeCount g v₂ = some (freeCount k v₂ group, v₂, 0) := rfl
        rw [M.bind_of_quiet hcount] at h
        obtain ⟨_, v₃, _, _, hset, h⟩ := M.of_bind h
        have hrest : v'.bgds = v₃.bgds := Steady.same h
        cases hset
        exact hrest
      have hdisk (i : ℕ) (hi : ¬Synced g i) : v'.disk i = v₂.disk i := by
        obtain ⟨hsb, htable⟩ := Frame.sync hsectors hi
        exact Frame.keeps h
      cases hwrite
      exact .inr ⟨rfl, rfl, hbgds, hdisk⟩

end Allocation

end Crius.Ext2
