import Crius.Ext2.Bitmaps
import Crius.Ext2.DirWalk
import Crius.Ext2.Refused

/-!
# Removing a directory

`ext2_unlink` does not ask what the name is the name of. On a volume on which nothing fails it
removes the entry of a directory like that of a file, and the directory stays counted.
-/
namespace Crius.Ext2

open Option Prod

/-! ## Code that ends -/

/-- What the code of a volume divides by is not zero. -/
class Divisors (g : Geo) : Prop where
  blockSize : g.blockSize ≠ 0
  sectors : g.blockSize / 512 ≠ 0
  square : u32 (g.blockSize / 4 * (g.blockSize / 4)) ≠ 0
  blocks : g.blocksPerGroup ≠ 0
  inodes : g.inodesPerGroup ≠ 0

/-- The code has a result on every volume. -/
class Ends {α : Type} (g : Geo) (m : M α) : Prop where
  ends : ∀ v, ∃ r, m g v = some r

section Ends

variable {α β : Type} {g : Geo} {m : M α}

instance (a : α) : Ends g (pure a) := ⟨fun _ => ⟨_, rfl⟩⟩

theorem Ends.bind {k : α → M β} (hm : Ends g m) (hk : ∀ a, Ends g (k a)) : Ends g (m >>= k) where
  ends v := by
    obtain ⟨⟨a, v₁, n⟩, hfirst⟩ := hm.ends v
    obtain ⟨⟨b, v₂, n'⟩, hrest⟩ := (hk a).ends v₁
    exact ⟨_, M.bind_eq_some.mpr ⟨a, v₁, n, n', hfirst, hrest, rfl⟩⟩

theorem Ends.read {k : Geo → M β} (h : Ends g (k g)) : Ends g ((read : M Geo) >>= k) where
  ends v := by
    rw [M.read_bind_apply]
    exact h.ends v

instance : Ends g (get : M Vol) := ⟨fun _ => ⟨_, rfl⟩⟩

instance (u : Vol → Vol) : Ends g (modify u : M PUnit) := ⟨fun _ => ⟨_, rfl⟩⟩

instance : Ends g touch := ⟨fun _ => ⟨_, rfl⟩⟩

theorem Ends.div (a : ℕ) {b : ℕ} (hb : b ≠ 0) : Ends g (div a b) where
  ends v := by
    rw [div_apply, if_neg hb]
    exact ⟨_, rfl⟩

instance : Ends g draw := ⟨fun _ => ⟨_, draw_apply⟩⟩

instance : Ends g kmalloc := ⟨fun _ => ⟨_, kmalloc_apply⟩⟩

instance (lba count : ℕ) (buf : Bytes) : Ends g (readSectorsOff lba count buf) := by
  unfold readSectorsOff
  repeat' first | infer_instance | refine .read ?_ | refine .bind ?_ fun _ => ?_ | split

instance (lba count : ℕ) (buf : Bytes) : Ends g (writeSectorsOff lba count buf) := by
  unfold writeSectorsOff
  repeat' first | infer_instance | refine .read ?_ | refine .bind ?_ fun _ => ?_ | split

instance (block : ℕ) (buf : Bytes) : Ends g (readBlock block buf) := by
  unfold readBlock secPerBlock
  exact .read inferInstance

instance (block : ℕ) (buf : Bytes) : Ends g (writeBlock block buf) := by
  unfold writeBlock secPerBlock
  exact .read inferInstance

instance : Ends g syncSuperblock := by
  unfold syncSuperblock
  repeat' first | infer_instance | refine .read ?_ | refine .bind ?_ fun _ => ?_ | split

variable [Divisors g]

theorem Ends.syncBgdsLoop {fuel remaining : ℕ} (hfuel : remaining ≤ fuel) (offset block : ℕ)
    (buf : Bytes) : Ends g (syncBgdsLoop fuel remaining offset block buf) := by
  have hbs := Divisors.blockSize (g := g)
  induction fuel generalizing remaining offset block buf with
  | zero =>
    rw [Ext2.syncBgdsLoop, if_pos (by omega)]
    infer_instance
  | succ fuel ih =>
    unfold Ext2.syncBgdsLoop
    repeat' first
      | exact ih (by omega) _ _ _
      | infer_instance
      | refine .read ?_
      | refine .bind ?_ fun _ => ?_
      | split

instance : Ends g syncBgds := by
  unfold syncBgds
  repeat' first
    | exact Ends.syncBgdsLoop (Nat.le_refl _) _ _ _
    | infer_instance
    | refine .read ?_
    | refine .bind ?_ fun _ => ?_
    | split

instance (ino : ℕ) : Ends g (inoToGroup ino) := .read (.div _ Divisors.inodes)

instance (ino : ℕ) : Ends g (inodePlace ino) := by
  unfold inodePlace
  repeat' first
    | infer_instance
    | exact .div _ Divisors.blockSize
    | refine .read ?_
    | refine .bind ?_ fun _ => ?_
    | split

instance (ino : ℕ) : Ends g (readInode ino) := by
  unfold readInode
  repeat' first | infer_instance | refine .read ?_ | refine .bind ?_ fun _ => ?_ | split

instance (ino : ℕ) (inode : Bytes) : Ends g (writeInode ino inode) := by
  unfold writeInode
  repeat' first | infer_instance | refine .read ?_ | refine .bind ?_ fun _ => ?_ | split

instance (k : BitmapKind) (group idx : ℕ) : Ends g (dropBit k group idx) := by
  unfold dropBit bgdField setBgdField setSbField
  repeat' first | infer_instance | refine .read ?_ | refine .bind ?_ fun _ => ?_ | split

instance (block : ℕ) : Ends g (freeBlock block) := by
  unfold freeBlock
  repeat' first
    | infer_instance
    | exact .div _ Divisors.blocks
    | refine .read ?_
    | refine .bind ?_ fun _ => ?_
    | split

instance (ino : ℕ) : Ends g (freeInode ino) := by
  unfold freeInode
  repeat' first | infer_instance | refine .read ?_ | refine .bind ?_ fun _ => ?_ | split

instance (inode : Bytes) (logical : ℕ) : Ends g (getBlockFromInode inode logical) := by
  unfold getBlockFromInode indirect
  repeat' first
    | infer_instance
    | exact .div _ Divisors.square
    | refine .read ?_
    | refine .bind ?_ fun _ => ?_
    | split
    | dsimp only

instance (inode : Bytes) (left logical : ℕ) : Ends g (freeMapped inode left logical) := by
  induction left generalizing logical with
  | zero =>
    unfold freeMapped
    infer_instance
  | succ left ih =>
    unfold freeMapped
    repeat' first | exact ih _ | infer_instance | refine .bind ?_ fun _ => ?_ | split

instance (blocks : List ℕ) : Ends g (freeAll blocks) := by
  induction blocks with
  | nil =>
    unfold freeAll
    infer_instance
  | cons block blocks ih =>
    unfold freeAll
    repeat' first | exact ih | infer_instance | refine .bind ?_ fun _ => ?_ | split

instance (inode : Bytes) : Ends g (freeInodeData inode) := by
  unfold freeInodeData dirBlocks
  repeat' first
    | infer_instance
    | exact .div _ Divisors.blockSize
    | exact .div _ Divisors.sectors
    | refine .read ?_
    | refine .bind ?_ fun _ => ?_
    | split

instance (ino : ℕ) : Ends g (dropLink ino) := by
  unfold dropLink
  repeat' first | split | dsimp only | infer_instance | refine .bind ?_ fun _ => ?_

end Ends

/-! ## Removing an entry -/

section Removal

variable {g : Geo} {v : Vol} (h : Healthy g v)

/-- A record that a search by name has found is found by its inode, if not one before it. -/
theorem recordOf_of_walk (prev : Option ℕ) {buf : Bytes} {name : List UInt8} {size fuel o d : ℕ}
    (hfound : walkRecords (fun o =>
      if deInode buf o ≠ 0 ∧ deName buf o (deNameLen buf o) = name then some (deInode buf o)
      else none) buf size fuel o = some d) : ∃ p, recordOf buf size d fuel o prev = some p := by
  induction fuel generalizing o prev with
  | zero => cases hfound
  | succ fuel ih =>
    rw [walkRecords] at hfound
    rw [recordOf]
    split at hfound
    · cases hfound
    rename_i hin
    rw [if_neg hin]
    by_cases hd : deInode buf o = d
    · exact ⟨_, if_pos hd⟩
    rw [if_neg hd]
    split at hfound
    · rename_i hhere
      split at hhere
      · cases hhere
        exact absurd (some.inj hfound) hd
      · cases hhere
    · exact ih _ hfound

include h

omit h in
/-- Code that yields something yields what one run of it gives. -/
theorem Yields.of_run {α : Type} {m : M α} {a : α} {w : Vol} {n : ℕ} (hsome : ∃ a, Yields m g v a v)
    (hrun : m g v = some (a, w, n)) : Yields m g v a v := by
  obtain ⟨a', hyields⟩ := hsome
  rwa [(hyields.result hrun).1]

/-- An inode that can be read once can be read at any time. -/
theorem Healthy.readInode_again {i t : ℕ} {r : Option Bytes} {w : Vol}
    (hrun : readInode i g v = some (r, w, t)) : Yields (readInode i) g v r v := by
  unfold Ext2.readInode at hrun ⊢
  rw [M.read_bind_apply] at hrun
  split at hrun
  · rename_i hoff
    cases hrun
    exact Yields.read (Yields.ite_pos hoff Yields.pure)
  rename_i hon
  obtain ⟨place, v₁, _, _, hplace, hrest⟩ := M.of_bind hrun
  obtain ⟨rfl, rfl, -⟩ := inodePlace_cases hplace
  have hagain : Yields (inodePlace i) g v₁ place v₁ := by
    intro c
    rw [inodePlace_apply] at hplace ⊢
    split_ifs at hplace ⊢ <;> cases hplace <;> exact ⟨c, 0, rfl⟩
  apply Yields.read
  apply Yields.ite_neg hon
  apply Yields.bind hagain
  cases place with
  | none =>
    cases hrest
    exact Yields.pure
  | some p =>
    obtain ⟨block, offset⟩ := p
    refine Yields.of_run ?_ hrest
    exact ⟨_, Yields.bind h.working.kmalloc (Yields.bind (h.working.readBlock block _) Yields.pure)⟩

/-- What `ext2_lookup` finds in a block, the loop of `ext2_unlink` comes to. -/
theorem Healthy.removeLoop {inode : Bytes} {name : List UInt8} {d left logical c t : ℕ}
    {buf buf' : Bytes} {w : Vol} (hbuf : ∀ i, g.blockSize ≤ i → buf i = buf' i)
    (hfound : lookupLoop inode name left logical buf g { v with clock := c } =
      some (some d, w, t)) :
    ∃ v', Yields (removeLoop inode d left logical buf') g v true v' := by
  induction left generalizing logical buf buf' c t with
  | zero =>
    rw [lookupLoop] at hfound
    cases hfound
  | succ left ih =>
    rw [lookupLoop] at hfound
    obtain ⟨phys, v₁, _, _, hphys, hfound⟩ := M.of_bind hfound
    obtain ⟨c₁, n, hget⟩ := h.getBlockFromInode inode logical c
    rw [hget] at hphys
    cases hphys
    split at hfound
    · cases hfound
    rename_i hmapped
    obtain ⟨p, v₂, _, _, hread, hfound⟩ := M.of_bind hfound
    obtain ⟨c₂, n', hblock⟩ := h.working.readBlock
      (foundBlock v.disk g.blockSize inode logical) buf c₁
    rw [hblock] at hread
    cases hread
    dsimp only at hfound
    rw [M.read_bind_apply] at hfound
    -- both loops have the same block in their buffers now
    have hsame (x : Bytes) : buf'.blit 0 x g.blockSize = buf.blit 0 x g.blockSize := by
      funext i
      by_cases hi : i < g.blockSize
      · rw [Bytes.blit_inside (by omega), Bytes.blit_inside (by omega)]
      · rw [Bytes.blit_outside (by omega), Bytes.blit_outside (by omega), hbuf i (by omega)]
    unfold Ext2.removeLoop
    refine Exists.imp (fun v' hrest => Yields.bind (h.getBlockFromInode inode logical)
      (Yields.ite_neg hmapped (Yields.bind (h.working.readBlock _ buf') (Yields.read hrest)))) ?_
    dsimp only
    rw [hsame]
    generalize hblock : buf.blit 0 _ g.blockSize = block at hfound ⊢
    cases hrec : recordOf block g.blockSize d g.blockSize 0 none with
    | some p => exact ⟨_, Yields.bind (h.working.writeBlock _ _) Yields.pure⟩
    | none =>
      cases hwalk : walkRecords (fun o => if deInode block o ≠ 0 ∧
          deName block o (deNameLen block o) = name then some (deInode block o) else none)
          block g.blockSize g.blockSize 0 with
      | some d' =>
        rw [hwalk] at hfound
        cases hfound
        obtain ⟨p, hp⟩ := recordOf_of_walk none hwalk
        rw [hrec] at hp
        cases hp
      | none =>
        rw [hwalk] at hfound
        exact ih (fun _ _ => rfl) hfound

theorem Healthy.dirBlocks (inode : Bytes) : Yields (dirBlocks inode) g v
    (u32 (iSize inode + g.blockSize - 1) / g.blockSize) v := by
  have hbs : g.blockSize ≠ 0 := by rcases h.size with hs | hs | hs <;> omega
  exact Yields.read (Yields.div hbs)

/-- The directory and the search in its blocks, if there is an entry. -/
theorem Healthy.lookup_some {dirIno d t : ℕ} {name : List UInt8} {w : Vol}
    (hfound : lookup dirIno name g v = some (some d, w, t)) :
    ∃ inode, Yields (readInode dirIno) g v (some inode) v ∧
      ∃ c w t, lookupLoop inode name (u32 (iSize inode + g.blockSize - 1) / g.blockSize) 0 v.junk g
        { v with clock := c } = some (some d, w, t) := by
  unfold lookup at hfound
  obtain ⟨r, v₁, _, _, hread, hfound⟩ := M.of_bind hfound
  have hagain := h.readInode_again hread
  obtain ⟨-, hv₁⟩ := hagain.result hread
  have h₁ : Healthy g v₁ := h.of_oracle (by rw [hv₁])
  cases r with
  | none => cases hfound
  | some inode =>
    dsimp only at hfound
    split at hfound
    · cases hfound
    obtain ⟨r, v₂, _, _, hmem, hfound⟩ := M.of_bind hfound
    obtain ⟨rfl, hv₂⟩ := h₁.working.kmalloc.result hmem
    have h₂ : Healthy g v₂ := h₁.of_oracle (by rw [hv₂])
    obtain ⟨blocks, v₃, _, n₆, hblocks, hfound⟩ := M.of_bind hfound
    obtain ⟨rfl, hv₃⟩ := (h₂.dirBlocks inode).result hblocks
    have hjunk : v₁.junk = v.junk := by rw [hv₁]
    refine ⟨inode, hagain, v₃.clock, w, n₆, ?_⟩
    rw [← hjunk, ← hfound, hv₃, hv₂, hv₁]

/-- A directory that can be read shows that the geometry can be divided by. -/
theorem Healthy.divisors {dirIno d t : ℕ} {name : List UInt8} {w : Vol}
    (hblocks : g.blocksPerGroup ≠ 0) (hfound : lookup dirIno name g v = some (some d, w, t)) :
    Divisors g := by
  have hipg : g.inodesPerGroup ≠ 0 := by
    intro hzero
    obtain ⟨inode, hread, -⟩ := h.lookup_some hfound
    obtain ⟨c, n, hread⟩ := hread 0
    unfold readInode at hread
    rw [M.read_bind_apply] at hread
    split at hread
    · cases hread
    rw [M.bind_of_none (by rw [inodePlace_apply, if_pos hzero])] at hread
    cases hread
  have hsize := h.size
  refine ⟨by omega, by omega, ?_, hblocks, hipg⟩
  rcases hsize with hs | hs | hs <;> rw [hs] <;> decide

/-- The entry is removed. -/
theorem Healthy.unlink [Divisors g] {dirIno d t : ℕ} {name : List UInt8} {w : Vol}
    (hfound : lookup dirIno name g v = some (some d, w, t)) :
    ∃ v' n, unlink dirIno name g v = some (true, v', n) := by
  obtain ⟨inode, hread, c, w', t', hloop⟩ := h.lookup_some hfound
  obtain ⟨v₁, hremove⟩ := h.removeLoop (fun i _ => rfl (a := v.junk i)) hloop
  have hw := Steady.later hfound
  obtain ⟨c₁, n₁, hread⟩ := hread w.clock
  obtain ⟨c₂, n₂, hmem⟩ := h.working.kmalloc c₁
  obtain ⟨c₃, n₃, hblocks⟩ := h.dirBlocks inode c₂
  obtain ⟨c₄, n₄, hremove⟩ := hremove c₃
  obtain ⟨⟨u, v', n₅⟩, hdrop⟩ := Ends.ends (m := dropLink d) (g := g) { v₁ with clock := c₄ }
  unfold Ext2.unlink
  rw [M.bind_gives hfound, hw, M.bind_gives hread, M.bind_gives hmem, M.bind_gives hblocks,
    M.bind_gives hremove, if_pos rfl, M.bind_gives hdrop]
  exact ⟨v', 0, rfl⟩

end Removal

/-- A directory has no entry besides `"."` and `".."`. -/
def EmptyDir (g : Geo) (v : Vol) (d : ℕ) : Prop :=
  ∀ logical < iSize (inodeOn g v d) / g.blockSize, listedRecords
    (v.disk.shift (mappedBlock v.disk g.blockSize (inodeOn g v d) logical * g.blockSize))
    g.blockSize g.blockSize 0 = []

/-- The inode `d` of `v` and the blocks of its tree are free in `v'`. -/
def FreeAgain (g : Geo) (v v' : Vol) (d : ℕ) : Prop :=
  bitAt g v' inodeBitmap.block ((d - 1) / g.inodesPerGroup) ((d - 1) % g.inodesPerGroup) = false ∧
    ∀ r ks, IsNode g.blockSize r ks → ∀ b, b ≠ 0 →
      followMap v.disk g.blockSize (iBlock (inodeOn g v d) r) ks = b →
      bitAt g v' blockBitmap.block ((b - g.firstDataBlock) / g.blocksPerGroup)
        ((b - g.firstDataBlock) % g.blocksPerGroup) = false

/-- The entry `name` of a directory names the directory `d`. -/
structure NamesDir (g : Geo) (v : Vol) (dirIno : ℕ) (name : List UInt8) (d : ℕ) : Prop where
  entry : ∃ w t, lookup dirIno name g v = some (some d, w, t)
  isDir : ∃ inode w t, readInode d g v = some (some inode, w, t) ∧ fileType inode = sIfdir

/-- How the entry `name` of a directory, which names the directory `d`, is removed. -/
structure RemovesDir (g : Geo) (v : Vol) (dirIno : ℕ) (name : List UInt8) (d : ℕ) : Prop where
  full : ¬EmptyDir g v d → ∀ r v' n, unlink dirIno name g v = some (r, v', n) →
    r = false ∧ contents v' = contents v
  empty : EmptyDir g v d → ∀ v' n, unlink dirIno name g v = some (true, v', n) →
    FreeAgain g v v' d ∧
      usedDirs ((d - 1) / g.inodesPerGroup) v' + 1 = usedDirs ((d - 1) / g.inodesPerGroup) v ∧
      iLinks (inodeOn g v' dirIno) + 1 = iLinks (inodeOn g v dirIno)

/-- No directory is removed as it should be. If nothing fails, `ext2_unlink` returns 0 for every
entry that names one: a full directory is gone, and an empty one is still counted. -/
theorem removesDir_never (g : Geo) (v : Vol) (dirIno : ℕ) (name : List UInt8) (d : ℕ)
    (h : Healthy g v) (hblocks : g.blocksPerGroup ≠ 0) (hname : NamesDir g v dirIno name d) :
    ¬RemovesDir g v dirIno name d ∧ ∃ v' n, unlink dirIno name g v = some (true, v', n) ∧
      ∀ group, usedDirs group v' = usedDirs group v := by
  obtain ⟨w, t, hfound⟩ := hname.entry
  have := h.divisors hblocks hfound
  obtain ⟨v', n, hrun⟩ := h.unlink hfound
  have hsame (group : ℕ) : usedDirs group v' = usedDirs group v := Steady.same hrun
  refine ⟨fun hremoves => ?_, v', n, hrun, hsame⟩
  by_cases hempty : EmptyDir g v d
  · have hcount := (hremoves.empty hempty v' n hrun).2.1
    have := hsame ((d - 1) / g.inodesPerGroup)
    omega
  · exact absurd (hremoves.full hempty true v' n hrun).1 (by decide)

/-- A volume with `/d/f`; no block of it is free. -/
def treeVolume : List (ℕ × UInt8) :=
  [(1028, 9), (1040, 3), (1044, 1), (1057, 32), (1064, 16),
    (2048, 3), (2052, 4), (2056, 5), (2062, 3), (2064, 2), (3072, 0xFF), (4096, 0xFF), (4097, 0x1F),
    (5248, 0xED), (5249, 0x41), (5253, 4), (5274, 3), (5276, 2), (5288, 7),
    (6528, 0xED), (6529, 0x41), (6533, 4), (6554, 2), (6556, 2), (6568, 8),
    (6656, 0xA4), (6657, 0x81), (6682, 1),
    (7168, 2), (7172, 12), (7174, 1), (7175, 2), (7176, 46),
    (7180, 2), (7184, 12), (7186, 2), (7187, 2), (7188, 46), (7189, 46),
    (7192, 12), (7196, 0xE8), (7197, 3), (7198, 1), (7199, 2), (7200, 100),
    (8192, 12), (8196, 12), (8198, 1), (8199, 2), (8200, 46),
    (8204, 2), (8208, 12), (8210, 2), (8211, 2), (8212, 46), (8213, 46),
    (8216, 13), (8220, 0xE8), (8221, 3), (8222, 1), (8223, 1), (8224, 102)]

def treeVol : Vol where
  sb i := (treeVolume.lookup (1024 + i)).getD 0
  bgds i := (treeVolume.lookup (2048 + i)).getD 0
  disk i := (treeVolume.lookup i).getD 0
  oracle _ := true
  clock := 0
  junk := Bytes.zero

/-- `/d` is removed with the file in it. -/
theorem full_dir_removed : (unlink 2 [100] fileGeo treeVol).map (·.1) = some true ∧
    listedRecords (treeVol.disk.shift 8192) 1024 1024 0 = [⟨13, false, [102]⟩] := by
  decide +kernel

/-- The same volume after `/d/f` was removed. -/
def emptiedVol : Vol := { treeVol with disk := treeVol.disk.put32 8216 0 }

theorem removesDir_never_tree : ¬RemovesDir fileGeo treeVol 2 [100] 12 ∧
    ¬RemovesDir fileGeo emptiedVol 2 [100] 12 := by
  have hnames (v : Vol) (hentry : (lookup 2 [100] fileGeo v).map (·.1) = some (some 12))
      (hdir : ((readInode 12 fileGeo v).bind (·.1)).map fileType = some sIfdir) :
      NamesDir fileGeo v 2 [100] 12 := by
    obtain ⟨⟨r, w, t⟩, hrun, rfl⟩ := map_eq_some_iff.mp hentry
    obtain ⟨inode, hread, htype⟩ := map_eq_some_iff.mp hdir
    obtain ⟨⟨r, w', t'⟩, hread, rfl⟩ := bind_eq_some_iff.mp hread
    exact ⟨⟨w, t, hrun⟩, inode, w', t', hread, htype⟩
  constructor
  · exact (removesDir_never fileGeo treeVol 2 [100] 12 ⟨rfl, rfl, .inl rfl, fun _ => rfl⟩
      (by decide) (hnames treeVol (by decide +kernel) (by decide +kernel))).1
  · exact (removesDir_never fileGeo emptiedVol 2 [100] 12 ⟨rfl, rfl, .inl rfl, fun _ => rfl⟩
      (by decide) (hnames emptiedVol (by decide +kernel) (by decide +kernel))).1

end Crius.Ext2
