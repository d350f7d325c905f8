import Mathlib.Tactic
import Crius.Abi

/-!
# The mounted ext2 volume

The parts of `fs/ext2/` that read and write the device of the mounted volume:
`ext2_inode.c`, `ext2_alloc.c`, `ext2_block.c` and the input and output of `ext2.c`.

These functions reach a device only through `cur_bd` and none of them changes `cur_bd` or
the geometry. So they act on the contents of that one device, and the geometry is
something they can only read. Structures on the disk stay what they are, bytes at an
offset. `uint32_t` values are natural numbers that are reduced where they can wrap.

An allocation or a transfer fails when the oracle says so. A transfer that fails leaves
the buffer, or the disk, as it was; an allocated buffer holds junk. A division by zero and
a loop that does not end have no result.
-/
namespace Crius.Ext2

open Abi Option Prod

/-- A buffer, a structure or a disk, by the offset of the byte. -/
abbrev Bytes := Nat → UInt8

namespace Bytes

def zero : Bytes := fun _ => 0

def u16At (b : Bytes) (o : Nat) : Nat := (b o).toNat + (b (o + 1)).toNat * 2 ^ 8

def u32At (b : Bytes) (o : Nat) : Nat := u16At b o + u16At b (o + 2) * 2 ^ 16

def put8 (b : Bytes) (o v : Nat) : Bytes := Function.update b o (UInt8.ofNat v)

def put16 (b : Bytes) (o v : Nat) : Bytes := put8 (put8 b o v) (o + 1) (v / 2 ^ 8)

def put32 (b : Bytes) (o v : Nat) : Bytes := put16 (put16 b o v) (o + 2) (v / 2 ^ 16)

/-- `memcpy(dst + o, src, n)` -/
def blit (dst : Bytes) (o : Nat) (src : Bytes) (n : Nat) : Bytes := fun i =>
  if o ≤ i ∧ i < o + n then src (i - o) else dst i

/-- `b + o` -/
def shift (b : Bytes) (o : Nat) : Bytes := fun i => b (o + i)

end Bytes

/-- A value that is stored in a `uint32_t`. -/
def u32 (n : Nat) : Nat := n % 2 ^ 32

/-- `x--` for a `uint32_t`, and for a `uint16_t` -/
def dec32 (n : Nat) : Nat := (n + (2 ^ 32 - 1)) % 2 ^ 32
def dec16 (n : Nat) : Nat := (n + (2 ^ 16 - 1)) % 2 ^ 16

/-- The variables that only a mount changes; `hasBd` is `cur_bd != NULL`. -/
structure Geo where
  mounted : Bool
  hasBd : Bool
  blockSize : Nat
  blocksPerGroup : Nat
  inodesPerGroup : Nat
  inodeSize : Nat
  numGroups : Nat
  firstDataBlock : Nat
  deriving DecidableEq, Repr

/-- The superblock and the group descriptors in memory, the device, and what decides
about allocations and transfers. -/
structure Vol where
  sb : Bytes
  bgds : Bytes
  disk : Bytes
  oracle : Nat → Bool
  clock : Nat
  junk : Bytes

/-- Code that works on the mounted volume. Beside its result it gives the number of
transfers that it asked the device for. -/
def M (α : Type) := Geo → Vol → Option (α × Vol × Nat)

namespace M

variable {α β : Type} {m : M α} {f : α → M β} {g : Geo} {v : Vol}

protected def pure (a : α) : M α := fun _ v => some (a, v, 0)

protected def bind (m : M α) (f : α → M β) : M β := fun g v =>
  match m g v with
  | none => none
  | some (a, v₁, n) =>
    match f a g v₁ with
    | none => none
    | some (b, v₂, k) => some (b, v₂, n + k)

instance : Monad M where
  pure := M.pure
  bind := M.bind

instance : MonadReaderOf Geo M where
  read := fun g v => some (g, v, 0)

instance : MonadStateOf Vol M where
  get := fun _ v => some (v, v, 0)
  set v := fun _ _ => some ((), v, 0)
  modifyGet f := fun _ v => some ((f v).1, (f v).2, 0)

theorem bind_eq_some {b : β} {v' : Vol} {n : Nat} : (m >>= f) g v = some (b, v', n) ↔
    ∃ a v1 n1 n2, m g v = some (a, v1, n1) ∧ f a g v1 = some (b, v', n2) ∧ n = n1 + n2 := by
  change M.bind m f g v = _ ↔ _
  unfold M.bind
  constructor
  · intro h
    split at h
    · cases h
    · rename_i a v1 n1 hm
      split at h
      · cases h
      · rename_i b' v2 n2 hf
        cases h
        exact ⟨a, v1, n1, n2, hm, hf, rfl⟩
  · intro ⟨a, v1, n1, n2, hm, hf, hn⟩
    simp only [hm, hf, hn]

/-- The two parts of a run. -/
theorem of_bind {b : β} {v' : Vol} {n : Nat} (h : (m >>= f) g v = some (b, v', n)) :
    ∃ a v1 n1 n2, m g v = some (a, v1, n1) ∧ f a g v1 = some (b, v', n2) := by
  obtain ⟨a, v1, n1, n2, hfirst, hrest, -⟩ := bind_eq_some.mp h
  exact ⟨a, v1, n1, n2, hfirst, hrest⟩

/-- What is left to do after a first part. -/
theorem bind_gives {a : α} {v1 : Vol} {n1 : Nat} (h : m g v = some (a, v1, n1)) (b : β) :
    (∃ v' n, (m >>= f) g v = some (b, v', n)) ↔ ∃ v' n, f a g v1 = some (b, v', n) := by
  constructor
  · intro hgives
    obtain ⟨v', n, hrun⟩ := hgives
    obtain ⟨a', v2, n2, n3, hm, hf, -⟩ := bind_eq_some.mp hrun
    rw [h, some.injEq, mk.injEq, mk.injEq] at hm
    obtain ⟨rfl, rfl, -⟩ := hm
    exact ⟨v', n3, hf⟩
  · intro hgives
    obtain ⟨v', n, hf⟩ := hgives
    exact ⟨v', n1 + n, bind_eq_some.mpr ⟨a, v1, n1, n, h, hf, rfl⟩⟩

/-- What comes first makes no transfer. -/
theorem bind_of_quiet {a : α} {v1 : Vol} (h : m g v = some (a, v1, 0)) :
    (m >>= f) g v = f a g v1 := by
  change M.bind m f g v = _
  unfold M.bind
  rw [h]
  cases hf : f a g v1 with
  | none => simp only [hf]
  | some r => simp only [hf, Nat.zero_add]

theorem bind_of_none (h : m g v = none) : (m >>= f) g v = none := by
  change M.bind m f g v = _
  unfold M.bind
  rw [h]

@[simp]
theorem pure_apply (a : α) : (pure a : M α) g v = some (a, v, 0) := rfl

@[simp]
theorem pure_bind_apply (a : α) : ((pure a : M α) >>= f) g v = f a g v := bind_of_quiet rfl

@[simp]
theorem read_bind_apply (k : Geo → M β) : ((read : M Geo) >>= k) g v = k g g v := bind_of_quiet rfl

@[simp]
theorem get_bind_apply (k : Vol → M β) : ((get : M Vol) >>= k) g v = k v g v := bind_of_quiet rfl

@[simp]
theorem set_bind_apply (w : Vol) (k : PUnit → M β) :
    ((set w : M PUnit) >>= k) g v = k ⟨⟩ g w := bind_of_quiet rfl

instance : LawfulMonad M :=
  LawfulMonad.mk' M
    (fun x => by
      funext g v
      change M.bind x (fun a => pure a) g v = x g v
      unfold M.bind
      cases x g v with
      | none => rfl
      | some r => rfl)
    (fun x f => by
      funext g v
      exact M.pure_bind_apply x)
    (fun x f k => by
      funext g v
      change M.bind (M.bind x f) k g v = M.bind x (fun a => M.bind (f a) k) g v
      unfold M.bind
      cases x g v with
      | none => rfl
      | some r =>
        simp only
        cases f r.1 g r.2.1 with
        | none => rfl
        | some r₁ =>
          simp only
          cases k r₁.1 g r₁.2.1 with
          | none => rfl
          | some r₂ => simp only [Nat.add_assoc])

end M

/-- A fault, or a loop without end. -/
def crash {α : Type} : M α := fun _ _ => none

/-- One transfer. -/
def touch : M Unit := fun _ v => some ((), v, 1)

/-- A division, which faults for a zero divisor. -/
def div (a b : Nat) : M Nat := if b = 0 then crash else pure (a / b)

def draw : M Bool := do
  let v ← get
  set { v with clock := v.clock + 1 }
  return v.oracle v.clock

def kmalloc : M (Option Bytes) := do
  if ← draw then return some (← get).junk else return none

/-- `ext2_read_sectors_off` -/
def readSectorsOff (lba count : Nat) (buf : Bytes) : M (Bool × Bytes) := do
  if !(← read).hasBd then return (false, buf)
  else
    touch
    if ← draw then return (true, buf.blit 0 ((← get).disk.shift (lba * 512)) (count * 512))
    else return (false, buf)

/-- `ext2_write_sectors_off` -/
def writeSectorsOff (lba count : Nat) (buf : Bytes) : M Bool := do
  if !(← read).hasBd then return false
  else
    touch
    if ← draw then
      modify fun v => { v with disk := v.disk.blit (lba * 512) buf (count * 512) }
      return true
    else return false

def secPerBlock : M Nat := return (← read).blockSize / 512

/-- `ext2_read_block` -/
def readBlock (block : Nat) (buf : Bytes) : M (Bool × Bytes) := do
  let spb ← secPerBlock
  readSectorsOff (block * spb) spb buf

/-- `ext2_write_block` -/
def writeBlock (block : Nat) (buf : Bytes) : M Bool := do
  let spb ← secPerBlock
  writeSectorsOff (block * spb) spb buf

/-- `sizeof` the superblock, a group descriptor and an inode -/
def sbSize : Nat := 204
def bgdSize : Nat := 32
def inodeBytes : Nat := 124

/-- `ext2_sync_superblock` -/
def syncSuperblock : M Unit := do
  if !(← read).mounted then return
  else
    match ← kmalloc with
    | none => return
    | some buf =>
      match ← readSectorsOff 2 2 buf with
      | (false, _) => return
      | (true, buf) =>
        let _ ← writeSectorsOff 2 2 (buf.blit 0 (← get).sb sbSize)
        return

/-- The loop of `ext2_sync_bgds`. -/
def syncBgdsLoop : Nat → Nat → Nat → Nat → Bytes → M Unit
  | 0, remaining, _, _, _ => if remaining = 0 then pure () else crash
  | fuel + 1, remaining, offset, block, buf => do
    if remaining = 0 then return
    else
      let bs := (← read).blockSize
      let chunk := min remaining bs
      match ← readBlock block buf with
      | (false, _) => return
      | (true, buf) =>
        let buf := buf.blit 0 ((← get).bgds.shift offset) chunk
        let _ ← writeBlock block buf
        syncBgdsLoop fuel (remaining - chunk) (u32 (offset + chunk)) (u32 (block + 1)) buf

/-- `ext2_sync_bgds`; while a volume is mounted, `bgds` is not `NULL`. -/
def syncBgds : M Unit := do
  let g ← read
  if !g.mounted then return
  else
    match ← kmalloc with
    | none => return
    | some buf =>
      let size := u32 (g.numGroups * bgdSize)
      syncBgdsLoop size size 0 (u32 (g.firstDataBlock + 1)) buf

/-! ## Inodes -/

/-- `ino_to_group` and `ino_to_index` -/
def inoToGroup (ino : Nat) : M Nat := do div (ino - 1) (← read).inodesPerGroup
def inoToIndex (ino : Nat) : M Nat := do return (ino - 1) % (← read).inodesPerGroup

/-- The place of an inode: its block and the offset in it. The result is `none` for an
inode number that no group holds. -/
def inodePlace (ino : Nat) : M (Option (Nat × Nat)) := do
  let g ← read
  let group ← inoToGroup ino
  let index ← inoToIndex ino
  if g.numGroups ≤ group then return none
  else
    let table := (← get).bgds.u32At (group * bgdSize + 8)
    let offset := u32 (index * g.inodeSize)
    let block ← div offset g.blockSize
    return some (u32 (table + block), offset % g.blockSize)

/-- `ext2_read_inode`, with `none` for `-EIO` -/
def readInode (ino : Nat) : M (Option Bytes) := do
  if !(← read).mounted ∨ ino = 0 then return none
  else
    match ← inodePlace ino with
    | none => return none
    | some (block, offset) =>
      match ← kmalloc with
      | none => return none
      | some buf =>
        match ← readBlock block buf with
        | (false, _) => return none
        | (true, buf) => return some (Bytes.zero.blit 0 (buf.shift offset) inodeBytes)

/-- `ext2_write_inode` -/
def writeInode (ino : Nat) (inode : Bytes) : M Bool := do
  if !(← read).mounted ∨ ino = 0 then return false
  else
    match ← inodePlace ino with
    | none => return false
    | some (block, offset) =>
      match ← kmalloc with
      | none => return false
      | some buf =>
        match ← readBlock block buf with
        | (false, _) => return false
        | (true, buf) => writeBlock block (buf.blit offset inode inodeBytes)

/-! The fields of an inode that the code uses. -/

def iMode (inode : Bytes) : Nat := inode.u16At 0
def iSize (inode : Bytes) : Nat := inode.u32At 4
def iLinks (inode : Bytes) : Nat := inode.u16At 26
def iBlocks (inode : Bytes) : Nat := inode.u32At 28
def iBlock (inode : Bytes) (k : Nat) : Nat := inode.u32At (40 + 4 * k)
def setMode (inode : Bytes) (v : Nat) : Bytes := inode.put16 0 v
def setSize (inode : Bytes) (v : Nat) : Bytes := inode.put32 4 v
def setLinks (inode : Bytes) (v : Nat) : Bytes := inode.put16 26 v
def setBlocks (inode : Bytes) (v : Nat) : Bytes := inode.put32 28 v
def setBlock (inode : Bytes) (k v : Nat) : Bytes := inode.put32 (40 + 4 * k) v

/-- `EXT2_S_IFREG` and `EXT2_S_IFDIR` -/
def sIfreg : Nat := 0x8000
def sIfdir : Nat := 0x4000

/-- `i_mode & 0xF000` -/
def fileType (inode : Bytes) : Nat := iMode inode / 2 ^ 12 * 2 ^ 12 % 2 ^ 16

/-! ## Allocation -/

/-- One of the two bitmaps: the fields of its block and its free count in a group
descriptor, and of the free count in the superblock. -/
structure BitmapKind where
  block : Nat
  freeCount : Nat
  sbFreeCount : Nat

def blockBitmap : BitmapKind := ⟨0, 12, 12⟩
def inodeBitmap : BitmapKind := ⟨4, 14, 16⟩

/-- The first clear bit of a bitmap block. -/
def clearBit (bitmap : Bytes) (size : Nat) : Option (Nat × Nat) :=
  match (List.range size).find? fun i => bitmap i ≠ 0xFF with
  | none => none
  | some i => ((List.range 8).find? fun bit => !(bitmap i).toNat.testBit bit).map fun bit => (i, bit)

def bgdField (g off : Nat) : M Nat := return (← get).bgds.u16At (g * bgdSize + off)

def setBgdField (g off v : Nat) : M Unit :=
  modify fun s => { s with bgds := s.bgds.put16 (g * bgdSize + off) v }

def setSbField (off : Nat) (f : Nat → Nat) : M Unit :=
  modify fun s => { s with sb := s.sb.put32 off (f (s.sb.u32At off)) }

/-- The loop over the groups: take the first clear bit of a group with a free count. The
result is the group and the bit. -/
def takeBit (k : BitmapKind) : Nat → Nat → Bytes → M (Option (Nat × Nat))
  | 0, _, _ => return none
  | left + 1, g, bitmap => do
    if (← bgdField g k.freeCount) = 0 then takeBit k left (g + 1) bitmap
    else
      let block := (← get).bgds.u32At (g * bgdSize + k.block)
      match ← readBlock block bitmap with
      | (false, _) => takeBit k left (g + 1) bitmap
      | (true, bitmap) =>
        match clearBit bitmap (← read).blockSize with
        | none => takeBit k left (g + 1) bitmap
        | some (i, bit) =>
          let _ ← writeBlock block (bitmap.put8 i ((bitmap i).toNat + 2 ^ bit))
          setBgdField g k.freeCount (dec16 (← bgdField g k.freeCount))
          return some (g, i * 8 + bit)

/-- `ext2_alloc_block`; 0 is a failure. -/
def allocBlock : M Nat := do
  let g ← read
  if !g.mounted then return 0
  else
    match ← kmalloc with
    | none => return 0
    | some bitmap =>
      match ← takeBit blockBitmap g.numGroups 0 bitmap with
      | none => return 0
      | some (group, bit) =>
        setSbField blockBitmap.sbFreeCount dec32
        syncSuperblock
        syncBgds
        return u32 (g.firstDataBlock + group * g.blocksPerGroup + bit)

/-- `ext2_alloc_inode`; 0 is a failure. -/
def allocInode (isDir : Bool) : M Nat := do
  let g ← read
  if !g.mounted then return 0
  else
    match ← kmalloc with
    | none => return 0
    | some bitmap =>
      match ← takeBit inodeBitmap g.numGroups 0 bitmap with
      | none => return 0
      | some (group, bit) =>
        if isDir then
          setBgdField group 16 ((← bgdField group 16) + 1)
        setSbField inodeBitmap.sbFreeCount dec32
        syncSuperblock
        syncBgds
        return u32 (group * g.inodesPerGroup + bit + 1)

/-- The common end of `ext2_free_block` and `ext2_free_inode`. -/
def dropBit (k : BitmapKind) (group idx : Nat) : M Bool := do
  if (← read).numGroups ≤ group then return false
  else
    match ← kmalloc with
    | none => return false
    | some bitmap =>
      let block := (← get).bgds.u32At (group * bgdSize + k.block)
      match ← readBlock block bitmap with
      | (false, _) => return false
      | (true, bitmap) =>
        let byte := (bitmap (idx / 8)).toNat
        let _ ← writeBlock block
          (bitmap.put8 (idx / 8) (if byte.testBit (idx % 8) then byte - 2 ^ (idx % 8) else byte))
        setBgdField group k.freeCount ((← bgdField group k.freeCount) + 1)
        setSbField k.sbFreeCount fun n => n + 1
        syncSuperblock
        syncBgds
        return true

/-- `ext2_free_block` -/
def freeBlock (block : Nat) : M Bool := do
  let g ← read
  if !g.mounted ∨ block < g.firstDataBlock then return false
  else
    let group ← div (block - g.firstDataBlock) g.blocksPerGroup
    dropBit blockBitmap group ((block - g.firstDataBlock) % g.blocksPerGroup)

/-- `ext2_free_inode` -/
def freeInode (ino : Nat) : M Bool := do
  if !(← read).mounted ∨ ino = 0 then return false
  else
    let group ← inoToGroup ino
    dropBit inodeBitmap group (← inoToIndex ino)

/-! ## The block map -/

/-- Entry `k` of an indirect block, or 0 if it cannot be read. -/
def indirect (block k : Nat) (buf : Bytes) : M (Option Nat) := do
  match ← readBlock block buf with
  | (false, _) => return none
  | (true, buf) => return some (buf.u32At (4 * k))

/-- `get_block_from_inode`; 0 is a hole or a failure. -/
def getBlockFromInode (inode : Bytes) (logical : Nat) : M Nat := do
  if logical < 12 then return iBlock inode logical
  else
    let pb := (← read).blockSize / 4
    let logical := logical - 12
    if logical < pb then
      match ← kmalloc with
      | none => return 0
      | some buf => return (← indirect (iBlock inode 12) logical buf).getD 0
    else
      let logical := logical - pb
      if logical < u32 (pb * pb) then
        match ← kmalloc, ← kmalloc with
        | some buf1, some buf2 =>
          match ← indirect (iBlock inode 13) (logical / pb) buf1 with
          | none => return 0
          | some block => return (← indirect block (logical % pb) buf2).getD 0
        | _, _ => return 0
      else
        let logical := logical - u32 (pb * pb)
        if logical < u32 (pb * pb * pb) then
          match ← kmalloc, ← kmalloc, ← kmalloc with
          | some b1, some b2, some b3 =>
            let i1 ← div logical (u32 (pb * pb))
            let rest := logical % u32 (pb * pb)
            match ← indirect (iBlock inode 14) i1 b1 with
            | none => return 0
            | some block1 =>
              match ← indirect block1 (rest / pb) b2 with
              | none => return 0
              | some block2 => return (← indirect block2 (rest % pb) b3).getD 0
          | _, _, _ => return 0
        else return 0

/-- `set_block_in_inode`: whether it worked, and the inode. -/
def setBlockInInode (inode : Bytes) (logical phys : Nat) : M (Bool × Bytes) := do
  if logical < 12 then return (true, setBlock inode logical phys)
  else
    let pb := (← read).blockSize / 4
    let logical := logical - 12
    match ← kmalloc with
    | none => return (false, inode)
    | some buf =>
      if logical < pb then
        if iBlock inode 12 = 0 then
          let block ← allocBlock
          if block = 0 then return (false, setBlock inode 12 0)
          else
            let _ ← writeBlock block (Bytes.zero.put32 (4 * logical) phys)
            return (true, setBlock inode 12 block)
        else
          let (_, buf) ← readBlock (iBlock inode 12) buf
          let _ ← writeBlock (iBlock inode 12) (buf.put32 (4 * logical) phys)
          return (true, inode)
      else return (false, inode)

/-! ## What the parts of the driver give -/

section Apply

variable {g : Geo} {v v' : Vol} {n : Nat}

theorem draw_apply : draw g v = some (v.oracle v.clock, { v with clock := v.clock + 1 }, 0) := by
  unfold draw
  rw [M.get_bind_apply, M.set_bind_apply]
  rfl

theorem kmalloc_apply : kmalloc g v =
    some (if v.oracle v.clock then some v.junk else none, { v with clock := v.clock + 1 }, 0) := by
  unfold kmalloc
  rw [M.bind_of_quiet draw_apply]
  cases v.oracle v.clock with
  | true => rfl
  | false => rfl

section Device

variable (hbd : g.hasBd = true)

include hbd

/-- A read that the oracle refuses leaves the buffer. -/
theorem readSectorsOff_apply (lba count : Nat) (buf : Bytes) : readSectorsOff lba count buf g v =
    some ((v.oracle v.clock, if v.oracle v.clock then
      buf.blit 0 (v.disk.shift (lba * 512)) (count * 512) else buf),
        { v with clock := v.clock + 1 }, 1) := by
  unfold readSectorsOff
  rw [M.read_bind_apply, hbd]
  refine M.bind_eq_some.mpr ⟨(), v, 1, 0, rfl, ?_, rfl⟩
  rw [M.bind_of_quiet draw_apply]
  cases v.oracle v.clock <;> rfl

theorem writeSectorsOff_apply (lba count : Nat) (buf : Bytes) : writeSectorsOff lba count buf g v =
    some (v.oracle v.clock, { v with
      disk := if v.oracle v.clock then v.disk.blit (lba * 512) buf (count * 512) else v.disk
      clock := v.clock + 1 }, 1) := by
  unfold writeSectorsOff
  rw [M.read_bind_apply, hbd]
  refine M.bind_eq_some.mpr ⟨(), v, 1, 0, rfl, ?_, rfl⟩
  rw [M.bind_of_quiet draw_apply]
  cases v.oracle v.clock <;> rfl

end Device

theorem div_apply (a b : Nat) : div a b g v = if b = 0 then none else some (a / b, v, 0) := by
  unfold div
  split
  · rfl
  · rfl

/-- Where the inode is, without a transfer. -/
theorem inodePlace_apply (ino : Nat) : inodePlace ino g v =
    if g.inodesPerGroup = 0 then none
    else if g.numGroups ≤ (ino - 1) / g.inodesPerGroup then some (none, v, 0)
    else if g.blockSize = 0 then none
    else some (some (u32 (v.bgds.u32At ((ino - 1) / g.inodesPerGroup * bgdSize + 8) +
        u32 ((ino - 1) % g.inodesPerGroup * g.inodeSize) / g.blockSize),
      u32 ((ino - 1) % g.inodesPerGroup * g.inodeSize) % g.blockSize), v, 0) := by
  have hgroup : inoToGroup ino g v = div (ino - 1) g.inodesPerGroup g v := M.read_bind_apply _
  have hindex : inoToIndex ino g v = some ((ino - 1) % g.inodesPerGroup, v, 0) := rfl
  unfold inodePlace
  rw [M.read_bind_apply]
  by_cases hipg : g.inodesPerGroup = 0
  · rw [if_pos hipg]
    apply M.bind_of_none
    rw [hgroup, div_apply, if_pos hipg]
  · rw [div_apply, if_neg hipg] at hgroup
    rw [if_neg hipg, M.bind_of_quiet hgroup, M.bind_of_quiet hindex]
    by_cases hin : g.numGroups ≤ (ino - 1) / g.inodesPerGroup
    · rw [if_pos hin, if_pos hin]
      rfl
    · rw [if_neg hin, if_neg hin, M.get_bind_apply]
      split_ifs with hbs
      · apply M.bind_of_none
        rw [div_apply, if_pos hbs]
      · apply M.bind_of_quiet
        rw [div_apply, if_neg hbs]

theorem inodePlace_cases {ino : Nat} {place : Option (Nat × Nat)}
    (h : inodePlace ino g v = some (place, v', n)) :
    v' = v ∧ n = 0 ∧ (place.isSome = true ↔ (ino - 1) / g.inodesPerGroup < g.numGroups) := by
  rw [inodePlace_apply] at h
  split at h
  · cases h
  · split at h
    · rename_i hin
      cases h
      exact ⟨rfl, rfl, by simpa using hin⟩
    · rename_i hin
      split at h
      · cases h
      · cases h
        exact ⟨rfl, rfl, by simpa using hin⟩

end Apply

end Crius.Ext2
