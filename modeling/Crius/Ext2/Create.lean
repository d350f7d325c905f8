import Crius.Ext2.InodeSlots
import Crius.Ext2.RemoveDir

/-!
# Files and directories that are not created

`ext2_create_file` and `ext2_mkdir` take an inode before they know whether the entry can be added.
`ext2_free_inode` gives it back, but it needs memory and transfers itself, and it does not take a
directory out of the count again.
-/
namespace Crius.Ext2

open Prod Bytes

/-- The bytes of the bitmaps and of a directory: its inode and its blocks. -/
inductive Watched (g : Geo) (v : Vol) (dirIno : ℕ) : ℕ → Prop
  | blockBitmap {group i : ℕ} (hgroup : group < g.numGroups) (hi : i < g.blockSize) :
    Watched g v dirIno (bitmapAt g v blockBitmap.block group + i)
  | inodeBitmap {group i : ℕ} (hgroup : group < g.numGroups) (hi : i < g.blockSize) :
    Watched g v dirIno (bitmapAt g v inodeBitmap.block group + i)
  | inode {i : ℕ} (hi : i < inodeBytes) : Watched g v dirIno (inodeSlot g v dirIno + i)
  | block {logical block i : ℕ} (hblock : block ≠ 0) (hi : i < g.blockSize)
    (hmapped : mappedBlock v.disk g.blockSize (v.disk.shift (inodeSlot g v dirIno)) logical = block) :
    Watched g v dirIno (block * g.blockSize + i)

/-- The bitmaps, the descriptors and the parent directory are as before. -/
structure NoTrace (g : Geo) (v v' : Vol) (dirIno : ℕ) : Prop where
  descriptors : v'.bgds = v.bgds
  device : ∀ i, Watched g v dirIno i → v'.disk i = v.disk i

/-- What is watched is neither where the counts nor where another inode is written; the bits that
stand for no inode and the one of block 0 are not free. -/
structure Layout (g : Geo) (v : Vol) (dirIno : ℕ) : Prop where
  mounted : g.mounted = true
  device : g.hasBd = true
  sectors : 512 ∣ g.blockSize
  tables : InodeTables g v
  numbers : g.numGroups * g.inodesPerGroup < 2 ^ 32
  inodes : ∀ group idx, FreeBit inodeBitmap g v group idx → idx < g.inodesPerGroup ∧
    group * g.inodesPerGroup + idx + 1 ≠ dirIno
  blocks : ∀ group idx, FreeBit blockBitmap g v group idx →
    u32 (g.firstDataBlock + group * g.blocksPerGroup + idx) ≠ 0
  bitmaps : ∀ a < g.numGroups, ∀ b < g.numGroups,
    bitmapAt g v blockBitmap.block a ≠ bitmapAt g v inodeBitmap.block b
  counts : ∀ i, Watched g v dirIno i → ¬Synced g i
  slots : ∀ i, Watched g v dirIno i → ∀ ino, HasInode g ino → ino ≠ dirIno →
    i < inodeSlot g v ino ∨ inodeSlot g v ino + inodeBytes ≤ i

theorem NoTrace.of_contents {g : Geo} {v v' : Vol} (h : contents v' = contents v) (dirIno : ℕ) :
    NoTrace g v v' dirIno := by
  unfold contents at h
  simp only [mk.injEq] at h
  exact ⟨h.2.1, fun i _ => congrFun h.2.2 i⟩

/-! ## Directories -/

/-- No inode is taken: the name is there already, or none is free. -/
def Untaken (g : Geo) (v : Vol) (dirIno : ℕ) (name : List UInt8) : Prop :=
  ∃ found w t, lookup dirIno name g v = some (found, w, t) ∧
    (found = none → NoneFree inodeBitmap g w)

section Creation

variable {g : Geo} {v v' : Vol} {n : ℕ} (hbd : g.hasBd = true) (hsectors : 512 ∣ g.blockSize)

include hbd hsectors

/-- A directory that gets an inode is counted. -/
theorem allocInode_dir {ino : ℕ} (h : allocInode true g v = some (ino, v', n)) :
    ino = 0 ∧ contents v' = contents v ∧ NoneFree inodeBitmap g v ∨
    ¬NoneFree inodeBitmap g v ∧ ∃ group, usedDirs group v' = (usedDirs group v + 1) % 2 ^ 16 := by
  unfold allocInode at h
  rcases allocate_cases hbd hsectors h with hnone | ⟨hsome, group, idx, v₁, n₁, h, -, c, hv₁⟩
  · exact .inl hnone
  · refine .inr ⟨hsome, group, ?_⟩
    have hbefore : usedDirs group v₁ = usedDirs group v := by
      rw [hv₁]
      apply u16At_congr
      intro i h1 h2
      exact put16_outside (by simp only [inodeBitmap]; omega)
    dsimp only at h
    rw [if_pos rfl] at h
    have hcount : bgdField group 16 g v₁ = some (usedDirs group v₁, v₁, 0) := rfl
    rw [M.bind_of_quiet hcount] at h
    obtain ⟨_, v₂, _, _, hset, h⟩ := M.of_bind h
    have hrest : usedDirs group v' = usedDirs group v₂ := Steady.same h
    cases hset
    rw [hrest, ← hbefore]
    exact u16At_put16 _ _ _

/-- A failed `ext2_mkdir` leaves no trace exactly if it has not taken an inode. -/
theorem mkdir_noTrace {dirIno : ℕ} {name : List UInt8}
    (h : mkdir dirIno name g v = some (false, v', n)) :
    NoTrace g v v' dirIno ↔ Untaken g v dirIno name := by
  unfold mkdir at h
  obtain ⟨found, v₁, _, _, hlookup, h⟩ := M.of_bind h
  have hv₁ : contents v₁ = contents v := Steady.same hlookup
  cases found with
  | some ino =>
    have hsame : contents v' = contents v := (Steady.same h).trans hv₁
    exact iff_of_true (.of_contents hsame dirIno) ⟨_, _, _, hlookup, fun hnone => by cases hnone⟩
  | none =>
    obtain ⟨ino, v₂, _, _, halloc, h⟩ := M.of_bind h
    rcases allocInode_dir hbd hsectors halloc with ⟨rfl, hsame, hnone⟩ | ⟨hsome, group, hcount⟩
    · rw [if_pos rfl] at h
      have hall : contents v' = contents v := (Steady.same h).trans (hsame.trans hv₁)
      exact iff_of_true (.of_contents hall dirIno) ⟨_, _, _, hlookup, fun _ => hnone⟩
    · refine iff_of_false (fun htrace => ?_) fun huntaken => ?_
      · -- nothing takes the directory out of the count again
        have hrest : usedDirs group v' = usedDirs group v₂ := by
          refine @Steady.same _ _ _ _ ?_ _ _ _ _ _ h
          repeat' first | infer_instance | refine .bind ?_ fun _ => ?_ | split
        have hbefore : usedDirs group v₁ = usedDirs group v := Steady.same hlookup
        have hbgds : usedDirs group v' = usedDirs group v := by
          unfold usedDirs
          rw [htrace.descriptors]
        omega
      · obtain ⟨found, w, t, hagain, hnone⟩ := huntaken
        rw [hlookup] at hagain
        cases hagain
        exact hsome (hnone rfl)

end Creation

/-! ## Files -/

section Files

variable {g : Geo} {v v' : Vol} {n : ℕ}

/-- `ext2_create_file` up to the release of the inode: its result, or the inode to be released. -/
def createUpTo (dirIno : ℕ) (name : List UInt8) : M (Bool ⊕ ℕ) := do
  match ← lookup dirIno name with
  | some _ => return .inl false
  | none =>
    let newIno ← allocInode false
    if newIno = 0 then return .inl false
    else
      let _ ← writeInode newIno (setLinks (setMode Bytes.zero (sIfreg + 0x1A4)) 1)
      if ← addDirent dirIno newIno name 1 then return .inl true else return .inr newIno

/-- There is memory to release an inode, and its bitmap can be read, and written if the bit is set
there. -/
def CanRelease (g : Geo) (v : Vol) (ino : ℕ) : Prop :=
  v.oracle v.clock = true ∧ v.oracle (v.clock + 1) = true ∧
    (v.oracle (v.clock + 2) = true ∨ bitAt g v inodeBitmap.block ((ino - 1) / g.inodesPerGroup)
      ((ino - 1) % g.inodesPerGroup) = false)

theorem createFile_eq (dirIno : ℕ) (name : List UInt8) : createFile dirIno name = (do
    match ← createUpTo dirIno name with
    | .inl ok => return ok
    | .inr ino =>
      let _ ← freeInode ino
      return false) := by
  unfold createFile createUpTo
  rw [bind_assoc]
  apply bind_congr
  intro found
  cases found with
  | some ino => rw [pure_bind]
  | none =>
    rw [bind_assoc]
    apply bind_congr
    intro ino
    split
    · rw [pure_bind]
    · rw [bind_assoc]
      apply bind_congr
      intro _
      rw [bind_assoc]
      apply bind_congr
      intro ok
      cases ok <;> simp

theorem inodeTable_count {group off x a : ℕ} (hoff : 12 ≤ off ∧ off ≤ 14)
    (hbgds : v'.bgds = v.bgds.put16 (group * bgdSize + off) x) :
    inodeTable v' a = inodeTable v a := by
  unfold inodeTable
  rw [hbgds, u32At_count (by omega) hoff]

/-- The inode number of a free bit. -/
theorem Layout.number {dirIno group idx : ℕ} (hl : Layout g v dirIno)
    (hfree : FreeBit inodeBitmap g v group idx) :
    u32 (group * g.inodesPerGroup + idx + 1) = group * g.inodesPerGroup + idx + 1 ∧
      (group * g.inodesPerGroup + idx) / g.inodesPerGroup = group ∧
      (group * g.inodesPerGroup + idx) % g.inodesPerGroup = idx := by
  obtain ⟨hidx, -⟩ := hl.inodes group idx hfree
  have hrow := Nat.mul_le_mul_right g.inodesPerGroup (Nat.succ_le_of_lt hfree.inGroups)
  have hnumbers := hl.numbers
  rw [Nat.succ_mul] at hrow
  refine ⟨Nat.mod_eq_of_lt (by omega), ?_, ?_⟩
  · rw [Nat.mul_comm, Nat.mul_add_div hl.tables.inodes, Nat.div_eq_of_lt hidx, Nat.add_zero]
  · rw [Nat.mul_comm, Nat.mul_add_mod, Nat.mod_eq_of_lt hidx]

/-- A field that gets its old value back. -/
theorem put16_restored {b : Bytes} {o x : ℕ} (hx : x % 2 ^ 16 = b.u16At o) (y : ℕ) :
    (b.put16 o y).put16 o x = b := by
  have hlow := (b o).toNat_lt
  have hhigh := (b (o + 1)).toNat_lt
  unfold u16At at hx
  funext i
  by_cases hi : o ≤ i ∧ i < o + 2
  · have hbytes : UInt8.ofNat x = b o ∧ UInt8.ofNat (x / 2 ^ 8) = b (o + 1) := by
      constructor <;> apply UInt8.toNat.inj <;> rw [UInt8.toNat_ofNat'] <;> omega
    unfold put16 put8
    obtain rfl | rfl : i = o ∨ i = o + 1 := by omega
    · rw [Function.update_of_ne (by omega), Function.update_self, hbytes.1]
    · rw [Function.update_self, hbytes.2]
  · rw [put16_outside (by omega), put16_outside (by omega)]

variable (hbd : g.hasBd = true) (hsectors : 512 ∣ g.blockSize)

include hbd hsectors

/-- An entry that is not added has changed nothing. -/
theorem addDirent_false {dirIno child type : ℕ} {name : List UInt8}
    (hblocks : ∀ group idx, FreeBit blockBitmap g v group idx →
      u32 (g.firstDataBlock + group * g.blocksPerGroup + idx) ≠ 0)
    (h : addDirent dirIno child name type g v = some (false, v', n)) :
    contents v' = contents v := by
  unfold addDirent at h
  obtain ⟨r, v₁, _, hv₁, h⟩ := Steady.of_bind (f := contents) h
  cases r with
  | none => exact (Steady.same h).trans hv₁
  | some inode =>
    obtain ⟨r, v₂, _, hv₂, h⟩ := Steady.of_bind (f := contents) h
    rw [hv₁] at hv₂
    cases r with
    | none => exact (Steady.same h).trans hv₂
    | some buf =>
      obtain ⟨r, v₃, _, hv₃, h⟩ := Steady.of_bind (f := contents) h
      rw [hv₂] at hv₃
      obtain _ | p | logical := r
      · exact (Steady.same h).trans hv₃
      · obtain ⟨_, v₄, n₇, n₈, -, h⟩ := M.of_bind h
        cases h
      · obtain ⟨block, v₄, n₇, n₈, halloc, h⟩ := M.of_bind h
        split at h
        · rename_i hzero
          rcases allocBlock_cases hbd hsectors halloc with ⟨-, hsame⟩ | ⟨group, idx, hblock, hall⟩
          · exact (Steady.same h).trans (hsame.trans hv₃)
          · unfold contents at hv₃
            simp only [mk.injEq] at hv₃
            have hfree := hall.free.congr (v := v) (by rw [bitmapAt, hv₃.2.1]; rfl)
              (by rw [freeCount, hv₃.2.1]; rfl) (by rw [hv₃.2.2])
            exact absurd (hblock.symm.trans hzero) (hblocks group idx hfree)
        · rw [M.read_bind_apply] at h
          obtain ⟨_, v₅, _, _, -, h⟩ := M.of_bind h
          obtain ⟨_, v₆, _, _, -, h⟩ := M.of_bind h
          obtain ⟨_, v₇, _, _, -, h⟩ := M.of_bind h
          cases h

/-- An inode is written to its slot or not at all. -/
theorem writeInode_frame {ino : ℕ} {inode : Bytes} {ok : Bool} (ht : InodeTables g v)
    (hi : HasInode g ino) (h : writeInode ino inode g v = some (ok, v', n)) {i : ℕ}
    (hout : i < inodeSlot g v ino ∨ inodeSlot g v ino + inodeBytes ≤ i) : v'.disk i = v.disk i := by
  unfold writeInode at h
  rw [M.read_bind_apply] at h
  split at h
  · cases h
    rfl
  obtain ⟨place, v₁, _, _, hplace, h⟩ := M.of_bind h
  obtain ⟨rfl, hv₁⟩ := (ht.inodePlace hi).result hplace
  dsimp only at h
  rw [M.bind_of_quiet kmalloc_apply, hv₁] at h
  cases hmem : v.oracle v₁.clock with
  | false =>
    simp only [hmem] at h
    cases h
    rfl
  | true =>
    simp only [hmem, if_true] at h
    obtain ⟨p, v₂, _, _, hread, h⟩ := M.of_bind h
    rw [readBlock_apply hbd hsectors] at hread
    cases hok : v.oracle (v₁.clock + 1) with
    | false =>
      simp only [hok] at hread
      cases hread
      cases h
      rfl
    | true =>
      simp only [hok, if_true] at hread
      cases hread
      dsimp only at h
      rw [writeBlock_apply hbd hsectors, blit_block (ht.ends_in_block ino)] at h
      cases h
      dsimp only
      split
      · exact blit_outside hout
      · rfl

/-- Without an inode nothing has changed. -/
theorem createUpTo_early {dirIno t : ℕ} {name : List UInt8} {w : Vol} (hl : Layout g v dirIno)
    (h : createUpTo dirIno name g v = some (.inl false, w, t)) : contents w = contents v := by
  unfold createUpTo at h
  obtain ⟨found, v₁, _, _, hlookup, h⟩ := M.of_bind h
  have hv₁ := Steady.later hlookup
  cases found with
  | some ino =>
    cases h
    rw [hv₁]
    rfl
  | none =>
    obtain ⟨ino, v₂, _, _, halloc, h⟩ := M.of_bind h
    rw [hv₁] at halloc
    split at h
    · rename_i hzero
      cases h
      rcases allocInode_file hbd hsectors halloc with ⟨-, hsame⟩ | ⟨group, idx, hnum, hall⟩
      · exact hsame
      · have hfree : FreeBit inodeBitmap g v group idx := hall.free.congr rfl rfl rfl
        rw [(hl.number hfree).1] at hnum
        omega
    · obtain ⟨_, v₃, _, _, -, h⟩ := M.of_bind h
      obtain ⟨ok, v₄, _, _, -, h⟩ := M.of_bind h
      split at h <;> cases h

/-- The state in which the inode is to be released. -/
theorem createUpTo_taken {dirIno ino t : ℕ} {name : List UInt8} {w : Vol} (hl : Layout g v dirIno)
    (h : createUpTo dirIno name g v = some (.inr ino, w, t)) :
    ino ≠ 0 ∧ ∃ c group idx, FreeBit inodeBitmap g v group idx ∧
      (ino - 1) / g.inodesPerGroup = group ∧ (ino - 1) % g.inodesPerGroup = idx ∧
      w.bgds = v.bgds.put16 (group * bgdSize + inodeBitmap.freeCount)
        (dec16 (freeCount inodeBitmap v group)) ∧
      ∀ i, Watched g v dirIno i → w.disk i =
        (if v.oracle c then v.disk.put8 (bitmapAt g v inodeBitmap.block group + idx / 8)
          ((v.disk (bitmapAt g v inodeBitmap.block group + idx / 8)).toNat + 2 ^ (idx % 8))
        else v.disk) i := by
  unfold createUpTo at h
  obtain ⟨found, v₁, _, _, hlookup, h⟩ := M.of_bind h
  have hv₁ := Steady.later hlookup
  cases found with
  | some ino => cases h
  | none =>
    obtain ⟨ino', v₂, _, _, halloc, h⟩ := M.of_bind h
    split at h
    · cases h
    rename_i hino
    obtain ⟨ok, v₃, _, _, hwrite, h⟩ := M.of_bind h
    obtain ⟨ok', v₄, _, _, hadd, h⟩ := M.of_bind h
    split at h
    · cases h
    rename_i hok
    cases h
    rw [Bool.not_eq_true] at hok
    subst hok
    rw [hv₁] at halloc
    rcases allocInode_file hbd hsectors halloc with ⟨hzero, -⟩ | ⟨group, idx, hnum, hall⟩
    · exact absurd hzero hino
    have hfree : FreeBit inodeBitmap g v group idx := hall.free.congr rfl rfl rfl
    obtain ⟨hidx, hother⟩ := hl.inodes group idx hfree
    obtain ⟨hu32, hgroup, hindex⟩ := hl.number hfree
    rw [hu32] at hnum
    subst hnum
    have hnew : HasInode g (group * g.inodesPerGroup + idx + 1) :=
      ⟨by omega, by rw [Nat.add_sub_cancel, hgroup]; exact hfree.inGroups⟩
    obtain ⟨c, hdisk⟩ := hall.disk
    have htable (a : ℕ) : inodeTable v₂ a = inodeTable v a := inodeTable_count (by decide) hall.bgds
    have hbgds : v₃.bgds = v₂.bgds := Steady.same hwrite
    have hframe (i : ℕ) (hi : Watched g v dirIno i) : v₃.disk i = v₂.disk i := by
      apply writeInode_frame hbd hsectors (hl.tables.congr htable) hnew hwrite
      rw [inodeSlot_congr htable]
      exact hl.slots i hi _ hnew hother
    have hblocks (a b : ℕ) (hbit : FreeBit blockBitmap g v₃ a b) :
        u32 (g.firstDataBlock + a * g.blocksPerGroup + b) ≠ 0 := by
      apply hl.blocks a b
      have ha := hbit.inGroups
      have hb := hbit.inBitmap
      apply hbit.congr
      · unfold bitmapAt
        rw [hbgds, hall.bgds, u32At_count (by decide) (by decide)]
      · unfold freeCount
        rw [hbgds, hall.bgds]
        apply u16At_congr
        intro i h1 h2
        simp only [blockBitmap, inodeBitmap, bgdSize] at *
        exact put16_outside (by omega)
      · have hwatched : Watched g v dirIno (bitmapAt g v blockBitmap.block a + b / 8) :=
          .blockBitmap ha (by omega)
        have hne : bitmapAt g v blockBitmap.block a + b / 8 ≠
            bitmapAt g v inodeBitmap.block group + idx / 8 := by
          have hapart := hl.bitmaps a ha group hfree.inGroups
          have hin := hfree.inBitmap
          unfold bitmapAt at hapart ⊢
          generalize v.bgds.u32At (a * bgdSize + blockBitmap.block) = A at *
          generalize v.bgds.u32At (group * bgdSize + inodeBitmap.block) = B at *
          have hne : A ≠ B := fun heq => hapart (by rw [heq])
          have hin' : A * g.blockSize ≤ A * g.blockSize + b / 8 ∧
              A * g.blockSize + b / 8 < A * g.blockSize + g.blockSize := by omega
          have hout := outside_block hne hin'
          omega
        rw [hframe _ hwatched, hdisk _ (hl.counts _ hwatched)]
        split
        · exact Function.update_of_ne hne _ _
        · rfl
    have hsame := addDirent_false hbd hsectors hblocks hadd
    unfold contents at hsame
    simp only [mk.injEq] at hsame
    refine ⟨by omega, c, group, idx, hfree, by rw [Nat.add_sub_cancel, hgroup],
      by rw [Nat.add_sub_cancel, hindex], by rw [hsame.2.1, hbgds, hall.bgds]; rfl, ?_⟩
    intro i hi
    rw [hsame.2.2, hframe i hi]
    exact hdisk i (hl.counts i hi)

/-- A failed `ext2_create_file` leaves no trace exactly if it can release the inode that it has
taken. -/
theorem createFile_noTrace {dirIno : ℕ} {name : List UInt8} (hl : Layout g v dirIno)
    (h : createFile dirIno name g v = some (false, v', n)) : NoTrace g v v' dirIno ↔
      ∀ ino w t, createUpTo dirIno name g v = some (.inr ino, w, t) → CanRelease g w ino := by
  rw [createFile_eq] at h
  obtain ⟨r, w, t, t', hup, h⟩ := M.of_bind h
  cases r with
  | inl ok =>
    cases h
    refine iff_of_true (.of_contents (createUpTo_early hbd hsectors hl hup) dirIno) ?_
    intro ino w' t₁ hup'
    rw [hup] at hup'
    cases hup'
  | inr ino =>
    obtain ⟨hino, c, group, idx, hfree, hgroup, hindex, hbgds, hdisk⟩ :=
      createUpTo_taken hbd hsectors hl hup
    obtain ⟨ok, v₁, _, _, hrelease, h⟩ := M.of_bind h
    cases h
    have hdrop : ∃ t, dropBit inodeBitmap group idx g w = some (ok, v', t) := by
      have hg : inoToGroup ino g w = some (group, w, 0) := by
        unfold inoToGroup
        rw [M.read_bind_apply, div_apply, if_neg hl.tables.inodes.ne', hgroup]
      have hx : inoToIndex ino g w = some (idx, w, 0) := by
        rw [← hindex]
        rfl
      unfold freeInode at hrelease
      rw [M.read_bind_apply, if_neg (by simp [hl.mounted, hino]), M.bind_of_quiet hg,
        M.bind_of_quiet hx] at hrelease
      exact ⟨_, hrelease⟩
    obtain ⟨t₁, hdrop⟩ := hdrop
    have hall : (∀ ino w t, createUpTo dirIno name g v = some (.inr ino, w, t) →
        CanRelease g w ino) ↔ CanRelease g w ino := by
      constructor
      · intro hall
        exact hall ino w t hup
      · intro hcan ino' w' t' hup'
        rw [hup] at hup'
        cases hup'
        exact hcan
    rw [hall]
    unfold CanRelease
    rw [hgroup, hindex]
    have hplace : bitmapAt g w inodeBitmap.block group = bitmapAt g v inodeBitmap.block group := by
      unfold bitmapAt
      rw [hbgds, u32At_count (by decide) (by decide)]
    have hwatched : Watched g v dirIno (bitmapAt g v inodeBitmap.block group + idx / 8) :=
      .inodeBitmap hfree.inGroups (by have := hfree.inBitmap; omega)
    have hbyte : w.disk (bitmapAt g v inodeBitmap.block group + idx / 8) = if v.oracle c then
        UInt8.ofNat ((v.disk (bitmapAt g v inodeBitmap.block group + idx / 8)).toNat +
          2 ^ (idx % 8)) else v.disk (bitmapAt g v inodeBitmap.block group + idx / 8) := by
      rw [hdisk _ hwatched]
      split
      · exact Function.update_self _ _ _
      · rfl
    have hother (i : ℕ) (hi : Watched g v dirIno i)
        (hne : i ≠ bitmapAt g v inodeBitmap.block group + idx / 8) : w.disk i = v.disk i := by
      rw [hdisk i hi]
      split
      · exact Function.update_of_ne hne _ _
      · rfl
    obtain ⟨hbit, hback⟩ := restored (Nat.mod_lt idx (by decide)) hfree.clear hbyte
    have hcount : freeCount inodeBitmap w group =
        dec16 (freeCount inodeBitmap v group) % 2 ^ 16 := by
      unfold freeCount
      rw [hbgds]
      exact u16At_put16 _ _ _
    have hlt : freeCount inodeBitmap v group < 2 ^ 16 := u16At_lt _ _
    have hcounted := hfree.counted
    rcases dropBit_cases hbd hsectors hfree.inGroups hfree.inBitmap hdrop with
      ⟨hfail, hsame⟩ | ⟨hmem, hread, hbgds', hdisk'⟩
    · refine iff_of_false (fun htrace => ?_) fun hcan => ?_
      · -- the count stays lowered
        have hbgds₁ : v'.bgds = w.bgds := congrArg (fun c : Bytes × Bytes × Bytes => c.2.1) hsame
        have hkept : freeCount inodeBitmap w group = freeCount inodeBitmap v group := by
          unfold freeCount
          rw [← hbgds₁, htrace.descriptors]
        unfold dec16 at hcount
        omega
      · rcases hfail with hfail | hfail <;> simp [hfail] at hcan
    · constructor
      · intro htrace
        refine ⟨hmem, hread, ?_⟩
        by_contra hno
        rw [not_or] at hno
        have hstays := hdisk' _ (hl.counts _ hwatched)
        rw [if_neg hno.1, htrace.device _ hwatched] at hstays
        apply hno.2
        rw [bitAt, hplace, ← hstays]
        exact hfree.clear
      · intro hcan
        refine ⟨?_, fun i hi => ?_⟩
        · rw [hbgds', hbgds]
          apply put16_restored
          rw [hcount]
          change _ = freeCount inodeBitmap v group
          unfold dec16
          omega
        · rw [hdisk' i (hl.counts i hi)]
          split
          · unfold cleared bitAt
            rw [hplace]
            by_cases hp : i = bitmapAt g v inodeBitmap.block group + idx / 8
            · rw [hp]
              exact (Function.update_self _ _ _).trans hback
            · exact (Function.update_of_ne hp _ _).trans (hother i hi hp)
          · rename_i hno
            -- the bit was not written either when it was taken
            have hunset := hcan.2.2.resolve_left hno
            rw [bitAt, hplace, hbit] at hunset
            rw [hdisk i hi, hunset]
            rfl

end Files

/-- The device with `/d/f`, in whose bitmap the bits behind the inodes are set. -/
def paddedDisk : Bytes := fun i => if 4098 ≤ i ∧ i < 5120 then 0xFF else treeVol.disk i

def paddedVol (oracle : ℕ → Bool) : Vol := { treeVol with disk := paddedDisk, oracle := oracle }

section Padded

variable {oracle : ℕ → Bool}

variable (oracle) in
theorem paddedVol_places : bitmapAt fileGeo (paddedVol oracle) blockBitmap.block 0 = 3072 ∧
    bitmapAt fileGeo (paddedVol oracle) inodeBitmap.block 0 = 4096 ∧
    inodeSlot fileGeo (paddedVol oracle) 2 = 5248 := by
  change bitmapAt fileGeo treeVol blockBitmap.block 0 = 3072 ∧
    bitmapAt fileGeo treeVol inodeBitmap.block 0 = 4096 ∧ inodeSlot fileGeo treeVol 2 = 5248
  decide +kernel

/-- What is watched: the two bitmaps, the inode of the root directory and its block. -/
theorem watched_paddedVol {i : ℕ} (h : Watched fileGeo (paddedVol oracle) 2 i) :
    3072 ≤ i ∧ i < 5120 ∨ 5248 ≤ i ∧ i < 5372 ∨ 7168 ≤ i := by
  have hbs : fileGeo.blockSize = 1024 := rfl
  obtain ⟨hblocks, hinodes, hslot⟩ := paddedVol_places oracle
  cases h with
  | blockBitmap hgroup hi =>
    obtain rfl := Nat.lt_one_iff.mp hgroup
    omega
  | inodeBitmap hgroup hi =>
    obtain rfl := Nat.lt_one_iff.mp hgroup
    omega
  | inode hi =>
    unfold inodeBytes at hi
    omega
  | @block logical block i hblock hi hmapped =>
    have hroots : ∀ r < 15, iBlock (paddedDisk.shift 5248) r = if r = 0 then 7 else 0 := by
      decide +kernel
    rw [hslot] at hmapped
    unfold mappedBlock at hmapped
    have hseven : block = 7 := by
      cases hpath : blockPath fileGeo.blockSize logical with
      | none => exact absurd (by rw [← hmapped, hpath]) hblock
      | some p =>
        obtain ⟨r, ks⟩ := p
        obtain ⟨⟨hr, -, -⟩, hlen⟩ := blockPath_node (by decide) hpath
        rw [hpath] at hmapped
        change followMap paddedDisk 1024 (iBlock (paddedDisk.shift 5248) r) ks = block at hmapped
        rw [hroots r (by omega)] at hmapped
        by_cases hzero : r = 0
        · subst hzero
          obtain rfl := List.length_eq_zero_iff.mp hlen
          exact hmapped.symm
        · rw [if_neg hzero, followMap_zero] at hmapped
          exact absurd hmapped.symm hblock
    rw [hseven]
    omega

theorem layout_paddedVol : Layout fileGeo (paddedVol oracle) 2 := by
  obtain ⟨hblocks, hinodes, hslot⟩ := paddedVol_places oracle
  have hbs : fileGeo.blockSize = 1024 := rfl
  have htables : InodeTables fileGeo (paddedVol oracle) := by
    refine ⟨by decide, by decide, by decide, by decide, by decide, fun a ha b hb hne => ?_⟩
    exact absurd ((Nat.lt_one_iff.mp ha).trans (Nat.lt_one_iff.mp hb).symm) hne
  refine ⟨rfl, rfl, by decide, htables, by decide, ?_, ?_, ?_, ?_, ?_⟩
  · intro group idx hfree
    obtain rfl := Nat.lt_one_iff.mp hfree.inGroups
    have hclear := hfree.clear
    have hin := hfree.inBitmap
    unfold bitAt at hclear
    rw [hinodes] at hclear
    change (paddedDisk (4096 + idx / 8)).toNat.testBit (idx % 8) = false at hclear
    have hlow : ∀ idx < 16, (paddedDisk (4096 + idx / 8)).toNat.testBit (idx % 8) = false →
        0 * 16 + idx + 1 ≠ 2 := by decide +kernel
    have hidx : idx < 16 := by
      by_contra hge
      have hset : ∀ bit < 8, (0xFF : UInt8).toNat.testBit bit = true := by decide
      rw [paddedDisk, if_pos (by omega), hset _ (Nat.mod_lt _ (by decide))] at hclear
      cases hclear
    exact ⟨hidx, hlow idx hidx hclear⟩
  · intro group idx hfree
    obtain rfl := Nat.lt_one_iff.mp hfree.inGroups
    have hin := hfree.inBitmap
    have hfirst : fileGeo.firstDataBlock = 1 := rfl
    unfold u32
    omega
  · intro a ha b hb
    rw [Nat.lt_one_iff.mp ha, Nat.lt_one_iff.mp hb, hblocks, hinodes]
    decide
  · intro i hi hsynced
    have hwatched := watched_paddedVol hi
    rcases hsynced with hsb | ⟨m, hm, hin⟩
    · omega
    · obtain rfl : m = 0 := by
        change m * 1024 < 32 at hm
        omega
      change 2 * 1024 ≤ i ∧ i < 2 * 1024 + 1024 at hin
      omega
  · intro i hi ino hino hne
    have hwatched := watched_paddedVol hi
    have hgroup : (ino - 1) / 16 < 1 := hino.group
    have hpos := hino.pos
    have hslots : ∀ ino < 17, 1 ≤ ino → ino ≠ 2 → 5120 ≤ inodeSlot fileGeo treeVol ino ∧
        inodeSlot fileGeo treeVol ino + inodeBytes ≤ 7168 ∧
        (inodeSlot fileGeo treeVol ino + inodeBytes ≤ 5248 ∨
          5372 ≤ inodeSlot fileGeo treeVol ino) := by decide +kernel
    have hslot := hslots ino (by omega) hpos hne
    change i < inodeSlot fileGeo treeVol ino ∨ inodeSlot fileGeo treeVol ino + inodeBytes ≤ i
    omega

end Padded

end Crius.Ext2
