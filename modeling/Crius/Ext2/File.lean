import Crius.Ext2.Volume

/-!
# Files and directories on ext2

`ext2_file.c`, `ext2_dir.c` and the path functions of `ext2_ops.c`. The walk over the
records of a directory block adds at least one byte at each step, since a record length
of zero ends it.
-/
namespace Crius.Ext2

open Abi Option

/-! ## File data -/

/-- The loop of `ext2_read_at`; the result is `pos`, or `none` after a failed read, and
the buffer of the caller. -/
def readLoop (inode : Bytes) (count : Nat) : Nat → Nat → Nat → Bytes → Bytes → M (Option Nat × Bytes)
  | 0, pos, _, _, buf => return (some pos, buf)
  | fuel + 1, pos, fileOffset, blockBuf, buf => do
    if count ≤ pos then return (some pos, buf)
    else
      let bs := (← read).blockSize
      let logical := u32 (← div fileOffset bs)
      let offInBlk := fileOffset % bs
      let chunk := min (bs - offInBlk) (count - pos)
      let phys ← getBlockFromInode inode logical
      if phys = 0 then return (some pos, buf)
      else
        match ← readBlock phys blockBuf with
        | (false, _) => return (none, buf)
        | (true, blockBuf) =>
          readLoop inode count fuel (pos + chunk) (fileOffset + chunk) blockBuf
            (buf.blit pos (blockBuf.shift offInBlk) chunk)

/-- `(int)n` -/
def asInt (n : Nat) : Int := Int.bmod n (2 ^ 32)

/-- `ext2_read_at` -/
def readAt (ino offset count : Nat) (buf : Bytes) : M (Int × Bytes) := do
  match ← readInode ino with
  | none => return (-ENOENT, buf)
  | some inode =>
    if fileType inode ≠ sIfreg then return (-ENOENT, buf)
    else if iSize inode ≤ offset then return (0, buf)
    else
      let count := min count (iSize inode - offset)
      match ← kmalloc with
      | none => return (-ENOENT, buf)
      | some blockBuf =>
        match ← readLoop inode count count 0 offset blockBuf buf with
        | (none, buf) => return (-ENOENT, buf)
        | (some pos, buf) => return (asInt pos, buf)

/-- The block that holds a part of a write, and its contents so far: a new one is
cleared, an old one is read unless all of it is replaced. -/
def blockForWrite (inode : Bytes) (logical offInBlk chunk : Nat) (blockBuf : Bytes) :
    M (Option (Nat × Bytes × Bytes)) := do
  let phys ← getBlockFromInode inode logical
  if phys = 0 then
    let phys ← allocBlock
    if phys = 0 then return none
    else
      let (_, inode) ← setBlockInInode inode logical phys
      return some (phys, inode, Bytes.zero)
  else if 0 < offInBlk ∨ chunk < (← read).blockSize then
    let (_, blockBuf) ← readBlock phys blockBuf
    return some (phys, inode, blockBuf)
  else return some (phys, inode, Bytes.zero)

/-- The loop of `ext2_write_at`; `none` after a failed allocation. -/
def writeLoop (buf : Bytes) (len : Nat) : Nat → Nat → Nat → Bytes → Bytes →
    M (Option (Nat × Nat × Bytes))
  | 0, pos, fileOffset, _, inode => return some (pos, fileOffset, inode)
  | fuel + 1, pos, fileOffset, blockBuf, inode => do
    if len ≤ pos then return some (pos, fileOffset, inode)
    else
      let bs := (← read).blockSize
      let logical := u32 (← div fileOffset bs)
      let offInBlk := fileOffset % bs
      let chunk := min (bs - offInBlk) (len - pos)
      match ← blockForWrite inode logical offInBlk chunk blockBuf with
      | none => return none
      | some (phys, inode, blockBuf) =>
        let blockBuf := blockBuf.blit offInBlk (buf.shift pos) chunk
        let _ ← writeBlock phys blockBuf
        writeLoop buf len fuel (pos + chunk) (fileOffset + chunk) blockBuf inode

/-- The size and the block count of a file that was written up to `fileOffset`. -/
def grow (inode : Bytes) (fileOffset : Nat) : M Bytes := do
  let bs := (← read).blockSize
  let inode := if iSize inode < fileOffset then setSize inode fileOffset else inode
  let needed ← div (u32 (iSize inode + bs - 1)) bs
  return setBlocks inode (needed * (bs / 512))

/-- `ext2_write_at` -/
def writeAt (ino offset : Nat) (buf : Bytes) (len : Nat) : M Int := do
  match ← readInode ino with
  | none => return -ENOENT
  | some inode =>
    if fileType inode ≠ sIfreg then return -ENOENT
    else
      match ← kmalloc with
      | none => return -ENOENT
      | some blockBuf =>
        match ← writeLoop buf len len 0 offset blockBuf inode with
        | none => return -ENOENT
        | some (pos, fileOffset, inode) =>
          if ← writeInode ino (← grow inode fileOffset) then return asInt pos else return - Abi.EIO

/-- `ext2_file_read`: the result, the new offset and the buffer. -/
def fileRead (ino offset count : Nat) (buf : Bytes) : M (Int × Nat × Bytes) := do
  let (n, buf) ← readAt ino offset count buf
  if n ≤ 0 then return (0, offset, buf) else return (n, offset + n.toNat, buf)

/-- The offset of a write, which is the end of the file with `O_APPEND`. -/
def writeOffset (ino flags offset : Nat) : M (Option Nat) := do
  if oAppend flags then return (← readInode ino).map iSize else return some offset

/-- `ext2_file_write`: the result and the new offset. -/
def fileWrite (ino flags offset : Nat) (buf : Bytes) (count : Nat) : M (Int × Nat) := do
  match ← writeOffset ino flags offset with
  | none => return (-ENOENT, offset)
  | some start =>
    let ret ← writeAt ino start buf count
    if 0 ≤ ret then return (ret, start + count) else return (ret, offset)

/-! ## Directories -/

/-- The fields of the record at an offset. -/
def deInode (buf : Bytes) (o : Nat) : Nat := buf.u32At o
def deRecLen (buf : Bytes) (o : Nat) : Nat := buf.u16At (o + 4)
def deNameLen (buf : Bytes) (o : Nat) : Nat := (buf (o + 6)).toNat
def deType (buf : Bytes) (o : Nat) : Nat := (buf (o + 7)).toNat

/-- The first bytes of the name of the record at an offset. -/
def deName (buf : Bytes) (o len : Nat) : List UInt8 := (List.range len).map fun i => buf (o + 8 + i)

/-- Walk over the records of a block, to the first one for which `f` gives a result. -/
def walkRecords {α : Type} (f : Nat → Option α) (buf : Bytes) (size : Nat) : Nat → Nat → Option α
  | 0, _ => none
  | fuel + 1, offset =>
    if size ≤ offset ∨ deRecLen buf offset = 0 then none
    else
      match f offset with
      | some a => some a
      | none => walkRecords f buf size fuel (offset + deRecLen buf offset)

/-- The number of blocks of a directory. -/
def dirBlocks (inode : Bytes) : M Nat := do
  let bs := (← read).blockSize
  div (u32 (iSize inode + bs - 1)) bs

/-- The loop over the blocks of a directory in `ext2_lookup`; a hole ends it. -/
def lookupLoop (inode : Bytes) (name : List UInt8) : Nat → Nat → Bytes → M (Option Nat)
  | 0, _, _ => return none
  | left + 1, logical, buf => do
    let phys ← getBlockFromInode inode logical
    if phys = 0 then return none
    else
      match ← readBlock phys buf with
      | (false, _) => return none
      | (true, buf) =>
        let bs := (← read).blockSize
        let found := walkRecords (fun o =>
          if deInode buf o ≠ 0 ∧ deName buf o (deNameLen buf o) = name then some (deInode buf o)
          else none) buf bs bs 0
        match found with
        | some ino => return some ino
        | none => lookupLoop inode name left (logical + 1) buf

/-- `ext2_lookup` -/
def lookup (dirIno : Nat) (name : List UInt8) : M (Option Nat) := do
  match ← readInode dirIno with
  | none => return none
  | some inode =>
    if fileType inode ≠ sIfdir then return none
    else
      match ← kmalloc with
      | none => return none
      | some buf => lookupLoop inode name (← dirBlocks inode) 0 buf

/-- The length of a record with a name of this length. -/
def recordLen (nameLen : Nat) : Nat := (8 + nameLen + 3) / 4 * 4

/-- A record without its length. -/
def putRecord (buf : Bytes) (o child : Nat) (name : List UInt8) (type : Nat) : Bytes :=
  (((buf.put32 o child).put8 (o + 6) name.length).put8 (o + 7) type).blit (o + 8)
    (fun i => name.getD i 0) name.length

/-- A record that `add_dirent` can use: an unused one, or one with room behind its name. -/
def placeRecord (buf : Bytes) (o child : Nat) (name : List UInt8) (type : Nat) : Option Bytes :=
  let actual := recordLen (deNameLen buf o)
  if deInode buf o = 0 ∧ recordLen name.length ≤ deRecLen buf o then
    some (putRecord buf o child name type)
  else if actual + recordLen name.length < deRecLen buf o then
    some (((putRecord (buf.put16 (o + 4) actual) (o + actual) child name type)).put16
      (o + actual + 4) (deRecLen buf o - actual))
  else none

/-- The loop over the blocks in `add_dirent`. The result is the block and its new contents,
or the first block behind the directory; a failed read is an error. -/
def placeLoop (inode : Bytes) (child : Nat) (name : List UInt8) (type : Nat) :
    Nat → Nat → Nat → Bytes → M (Option (Sum (Nat × Bytes) Nat))
  | 0, _, _, _ => crash
  | fuel + 1, remaining, logical, buf => do
    if remaining = 0 then return some (.inr logical)
    else
      let phys ← getBlockFromInode inode logical
      if phys = 0 then return some (.inr logical)
      else
        match ← readBlock phys buf with
        | (false, _) => return none
        | (true, buf) =>
          let bs := (← read).blockSize
          match walkRecords (fun o => placeRecord buf o child name type) buf bs bs 0 with
          | some buf => return some (.inl (phys, buf))
          | none =>
            -- `remaining` is a `size_t`, which wraps for a size that is no multiple
            placeLoop inode child name type fuel ((remaining + (2 ^ 64 - bs)) % 2 ^ 64)
              (u32 (logical + 1)) buf

/-- More rounds than logical block numbers. -/
def placeRounds : Nat := 2 ^ 32 + 1

/-- `add_dirent` -/
def addDirent (dirIno child : Nat) (name : List UInt8) (type : Nat) : M Bool := do
  match ← readInode dirIno with
  | none => return false
  | some inode =>
    match ← kmalloc with
    | none => return false
    | some buf =>
      match ← placeLoop inode child name type placeRounds (iSize inode) 0 buf with
      | none => return false
      | some (.inl (phys, buf)) =>
        let _ ← writeBlock phys buf
        return true
      | some (.inr logical) =>
        let newBlock ← allocBlock
        if newBlock = 0 then return false
        else
          let bs := (← read).blockSize
          let _ ← writeBlock newBlock ((putRecord Bytes.zero 0 child name type).put16 4 bs)
          let (_, inode) ← setBlockInInode inode logical newBlock
          let inode := setBlocks (setSize inode (iSize inode + bs)) (iBlocks inode + bs / 512)
          let _ ← writeInode dirIno inode
          return true

/-- `ext2_create_file` for the mode 0644 -/
def createFile (dirIno : Nat) (name : List UInt8) : M Bool := do
  match ← lookup dirIno name with
  | some _ => return false
  | none =>
    let newIno ← allocInode false
    if newIno = 0 then return false
    else
      let _ ← writeInode newIno (setLinks (setMode Bytes.zero (sIfreg + 0x1A4)) 1)
      if ← addDirent dirIno newIno name 1 then return true
      else
        let _ ← freeInode newIno
        return false

/-- The first block of a new directory. -/
def dotRecords (newIno dirIno bs : Nat) : Bytes :=
  (putRecord ((putRecord Bytes.zero 0 newIno [46] 2).put16 4 12) 12 dirIno [46, 46] 2).put16 16
    (bs - 12)

/-- `ext2_mkdir` -/
def mkdir (dirIno : Nat) (name : List UInt8) : M Bool := do
  match ← lookup dirIno name with
  | some _ => return false
  | none =>
    let newIno ← allocInode true
    if newIno = 0 then return false
    else
      let newBlock ← allocBlock
      if newBlock = 0 then
        let _ ← freeInode newIno
        return false
      else
        match ← kmalloc with
        | none =>
          let _ ← freeInode newIno
          return false
        | some _ =>
          let bs := (← read).blockSize
          let _ ← writeBlock newBlock (dotRecords newIno dirIno bs)
          let inode := setBlock (setBlocks (setSize (setLinks (setMode Bytes.zero (sIfdir + 0x1ED)) 2)
            bs) (bs / 512)) 0 newBlock
          let _ ← writeInode newIno inode
          if ← addDirent dirIno newIno name 2 then
            -- the result of this read is not checked
            match ← readInode dirIno with
            | some parent =>
              let _ ← writeInode dirIno (setLinks parent (iLinks parent + 1))
              return true
            | none =>
              let junk := (← get).junk
              let _ ← writeInode dirIno (setLinks junk (iLinks junk + 1))
              return true
          else
            let _ ← freeInode newIno
            let _ ← freeBlock newBlock
            return false

/-- The first loop of `ext2_free_inode_data`. -/
def freeMapped (inode : Bytes) : Nat → Nat → M Unit
  | 0, _ => return
  | left + 1, logical => do
    let phys ← getBlockFromInode inode logical
    if phys ≠ 0 then
      let _ ← freeBlock phys
    freeMapped inode left (logical + 1)

def freeAll : List Nat → M Unit
  | [] => return
  | block :: blocks => do
    if block ≠ 0 then
      let _ ← freeBlock block
    freeAll blocks

/-- `ext2_free_inode_data`: the inode without its blocks. -/
def freeInodeData (inode : Bytes) : M Bytes := do
  let bs := (← read).blockSize
  let blocks ← dirBlocks inode
  let blocks ← if blocks = 0 then div (iBlocks inode) (bs / 512) else pure blocks
  freeMapped inode blocks 0
  if iBlock inode 12 ≠ 0 then
    match ← kmalloc with
    | none => pure ()
    | some buf =>
      match ← readBlock (iBlock inode 12) buf with
      | (false, _) => pure ()
      | (true, buf) => freeAll ((List.range (bs / 4)).map fun i => buf.u32At (4 * i))
    let _ ← freeBlock (iBlock inode 12)
  return setSize (setBlocks (inode.blit 40 Bytes.zero 60) 0) 0

/-- The first record of a block with this inode, and the record before it. -/
def recordOf (buf : Bytes) (size ino : Nat) : Nat → Nat → Option Nat → Option (Nat × Option Nat)
  | 0, _, _ => none
  | fuel + 1, pos, prev =>
    if size ≤ pos ∨ deRecLen buf pos = 0 then none
    else if deInode buf pos = ino then some (pos, prev)
    else recordOf buf size ino fuel (pos + deRecLen buf pos) (some pos)

/-- The loop over the blocks in `ext2_unlink`: the record is joined to the one before it, or
marked unused. A read that fails is not noticed. -/
def removeLoop (inode : Bytes) (ino : Nat) : Nat → Nat → Bytes → M Bool
  | 0, _, _ => return false
  | left + 1, b, buf => do
    let phys ← getBlockFromInode inode b
    if phys = 0 then removeLoop inode ino left (b + 1) buf
    else
      let (_, buf) ← readBlock phys buf
      let bs := (← read).blockSize
      match recordOf buf bs ino bs 0 none with
      | none => removeLoop inode ino left (b + 1) buf
      | some (pos, prev) =>
        let buf :=
          match prev with
          | some p => buf.put16 (p + 4) (deRecLen buf p + deRecLen buf pos)
          | none => buf.put32 pos 0
        let _ ← writeBlock phys buf
        return true

/-- One link less; the last one takes the file with it. -/
def dropLink (ino : Nat) : M Unit := do
  match ← readInode ino with
  | none => return
  | some inode =>
    let links := dec16 (iLinks inode)
    let inode := setLinks inode links
    if links = 0 then
      let inode ← freeInodeData inode
      let _ ← writeInode ino inode
      let _ ← freeInode ino
      return
    else
      let _ ← writeInode ino inode
      return

/-- `ext2_unlink` -/
def unlink (dirIno : Nat) (name : List UInt8) : M Bool := do
  match ← lookup dirIno name with
  | none => return false
  | some ino =>
    match ← readInode dirIno with
    | none => return false
    | some inode =>
      match ← kmalloc with
      | none => return false
      | some buf =>
        if ← removeLoop inode ino (← dirBlocks inode) 0 buf then
          dropLink ino
          return true
        else return false

end Crius.Ext2
