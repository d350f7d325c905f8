import Crius.Fs.Handles

/-!
# The access mode of an open file

`vfs_open` stores the flags of a call in the file object. Of these, the calls on the object look
at `O_APPEND` alone: `O_RDONLY`, `O_WRONLY` and `O_RDWR` make no difference to what is read and
written through it.
-/
namespace Crius.Fs

open Abi Lib.Run Option

/-- A call on an open file; a device of the ramfs answers a read with `answer`. -/
inductive FileCall where
  | read (count : Nat) (answer : Int)
  | write (bytes : List UInt8)

namespace Handles

/-- The file data that `file_read` returns. -/
def readData (f : FileId) (count : Nat) (s : Handles) : List UInt8 :=
  let o := s.ram.files f
  if o.used = false then []
  else
    match o.ops with
    | some .ramfsFile => (ramfsFileRead s.ram f count).2.1
    | some .ext2File =>
      match s.ext2.exec (Ext2.fileRead o.priv o.offset count Ext2.Bytes.zero) with
      | none => []
      | some ((n, _, buf), _) => (List.range n.toNat).map buf
    | some .ramfsDir | some .ext2Dir | some .ramfsDev | none => []

/-- A call, with the file data that it returns. -/
def call (f : FileId) : FileCall → Handles → Option (List UInt8 × Handles)
  | .read count answer, s => (s.read f count answer).map fun s' => (s.readData f count, s')
  | .write bytes, s => (s.write f bytes).map fun s' => ([], s')

/-- A sequence of calls on one object, with the data of each. -/
def session (f : FileId) : List FileCall → Handles → Option (List (List UInt8) × Handles)
  | [], s => some ([], s)
  | c :: cs, s =>
    match s.call f c with
    | none => none
    | some (data, s) => (session f cs s).map fun r => (data :: r.1, r.2)

/-- The object with other flags. -/
def setFlags (f : FileId) (flags : Int) (s : Handles) : Handles :=
  s.setFile f { s.ram.files f with flags := flags }

/-- The access mode in the flags; what is above it are the other flags. -/
def accessMode (flags : Int) : Int := flags % 4

variable {f : FileId} {flags : Int} {s s' : Handles}

@[simp]
theorem setFlags_file (f : FileId) (flags : Int) (s : Handles) :
    (s.setFlags f flags).ram.files f = { s.ram.files f with flags := flags } := by
  simp [setFlags, setFile, RamfsState.setFile]

theorem setFlags_inodes : (s.setFlags f flags).ram.inodes = s.ram.inodes := rfl

theorem setFlags_ext2 : (s.setFlags f flags).ext2 = s.ext2 := rfl

theorem inodeOf_flags (o : File) : inodeOf { o with flags := flags } = inodeOf o := rfl

theorem setFlags_self (f : FileId) (s : Handles) : s.setFlags f (s.ram.files f).flags = s := by
  simp [setFlags, setFile, RamfsState.setFile]

theorem oAppend_eq (h : flags / 4 = (s.ram.files f).flags / 4) :
    oAppend flags = oAppend (s.ram.files f).flags ∧
      oAppend (flags.toNat : Int) = oAppend ((s.ram.files f).flags.toNat : Int) := by
  unfold oAppend
  constructor
  · congr 2
    omega
  · congr 2
    omega

/-! ## One call -/

theorem ramfsFileRead_setFlags (count : ℕ) : ramfsFileRead (s.setFlags f flags).ram f count =
    ((ramfsFileRead s.ram f count).1, (ramfsFileRead s.ram f count).2.1,
      (({ s with ram := (ramfsFileRead s.ram f count).2.2 } : Handles).setFlags f flags).ram) := by
  simp only [ramfsFileRead, setFlags_file]
  rw [setFlags_inodes, inodeOf_flags]
  split
  · rfl
  · split
    · rfl
    · simp [setFlags, setFile, RamfsState.setFile]

theorem writeStart_setFlags (h : flags / 4 = (s.ram.files f).flags / 4) :
    writeStart (s.setFlags f flags).ram f = writeStart s.ram f := by
  simp only [writeStart, setFlags_file]
  rw [(oAppend_eq h).1]
  rfl

theorem ramfsFileWrite_setFlags (bytes : List UInt8) (h : flags / 4 = (s.ram.files f).flags / 4) :
    ramfsFileWrite (s.setFlags f flags).ram f bytes = (ramfsFileWrite s.ram f bytes).map fun r =>
      (r.1, (({ s with ram := r.2 } : Handles).setFlags f flags).ram) := by
  simp only [ramfsFileWrite, writeStart_setFlags h, setFlags_file, setFlags_inodes, inodeOf_flags]
  cases writeStart s.ram f with
  | none => rfl
  | some start =>
    dsimp only
    cases ramfsWriteAt s.ram.inodes (inodeOf (s.ram.files f)) start bytes with
    | none => rfl
    | some r =>
      dsimp only
      split
      · simp [setFlags, setFile, RamfsState.setFile]
      · rfl

theorem readdir_setFlags (ptr : ℕ) :
    (s.setFlags f flags).readdir ptr = (s.readdir ptr).map (setFlags f flags) := by
  unfold readdir
  dsimp only
  have hmounts : (s.setFlags f flags).mounts = s.mounts := rfl
  have hhandles : (s.setFlags f flags).handles = s.handles := rfl
  rw [hmounts, hhandles]
  cases (s.mounts (s.handles ptr).slot).ops with
  | none => rfl
  | some fs =>
    cases fs with
    | ramfs =>
      dsimp only
      rw [setFlags_inodes]
      split
      · rfl
      · rfl
    | ext2 =>
      rw [setFlags_ext2]
      cases s.ext2.callback (s.mounts (s.handles ptr).slot).fsPrivate
          (Ext2.fsReaddir (s.handles ptr).relPath (s.handles ptr).position) with
      | none => rfl
      | some r =>
        dsimp only
        split
        · rfl
        · rfl

theorem transferred_setFlags (offset : ℕ) (d : Ext2.Driver) :
    (s.setFlags f flags).transferred f offset d = (s.transferred f offset d).setFlags f flags := by
  simp [transferred, setFlags, setFile, RamfsState.setFile, record]

theorem ramfsStep_read_setFlags (count : ℕ) (answer : Int) :
    ((ramfsFileStep (s.setFlags f flags).ram (.read f count answer)).map fun ram =>
      { s.setFlags f flags with ram := ram }) =
      ((ramfsFileStep s.ram (.read f count answer)).map fun ram => { s with ram := ram }).map
        (setFlags f flags) := by
  have hopen (ops : FileOps) : IsOpen (s.setFlags f flags).ram f ops ↔ IsOpen s.ram f ops := by
    simp only [IsOpen, setFlags_file]
  simp only [ramfsFileStep, hopen]
  split
  · rw [ramfsFileRead_setFlags]
    rfl
  · split
    · simp only [ramfsDevRead, setFlags_file, map_some]
      rw [setFlags_inodes, inodeOf_flags]
      split
      · rfl
      · split
        · rfl
        · dsimp only
          split
          · simp [setFlags, setFile, RamfsState.setFile]
          · rfl
    · rfl

theorem ramfsStep_write_setFlags (bytes : List UInt8) (h : flags / 4 = (s.ram.files f).flags / 4) :
    ((ramfsFileStep (s.setFlags f flags).ram (.write f bytes)).map fun ram =>
      { s.setFlags f flags with ram := ram }) =
      ((ramfsFileStep s.ram (.write f bytes)).map fun ram => { s with ram := ram }).map
        (setFlags f flags) := by
  have hopen : IsOpen (s.setFlags f flags).ram f .ramfsFile ↔ IsOpen s.ram f .ramfsFile := by
    simp only [IsOpen, setFlags_file]
  simp only [ramfsFileStep, hopen]
  split
  · rw [ramfsFileWrite_setFlags bytes h]
    cases ramfsFileWrite s.ram f bytes with
    | none => rfl
    | some r => rfl
  · rfl

theorem read_setFlags (count : ℕ) (answer : Int) :
    (s.setFlags f flags).read f count answer = (s.read f count answer).map (setFlags f flags) := by
  unfold read
  simp only [setFlags_file, setFlags_ext2]
  split
  · rfl
  · cases (s.ram.files f).ops with
    | none => rfl
    | some ops =>
      have hdir : (if count < direntSize ∨ (s.ram.files f).priv = 0 then some (s.setFlags f flags)
          else (s.setFlags f flags).readdir (s.ram.files f).priv) =
          (if count < direntSize ∨ (s.ram.files f).priv = 0 then some s
            else s.readdir (s.ram.files f).priv).map (setFlags f flags) := by
        split
        · rfl
        · exact readdir_setFlags _
      cases ops with
      | ramfsFile => exact ramfsStep_read_setFlags count answer
      | ramfsDev => exact ramfsStep_read_setFlags count answer
      | ramfsDir => exact hdir
      | ext2Dir => exact hdir
      | ext2File =>
        cases s.ext2.exec (Ext2.fileRead (s.ram.files f).priv (s.ram.files f).offset count
            Ext2.Bytes.zero) with
        | none => rfl
        | some r =>
          dsimp only
          rw [transferred_setFlags]
          rfl

theorem write_setFlags (bytes : List UInt8) (h : flags / 4 = (s.ram.files f).flags / 4) :
    (s.setFlags f flags).write f bytes = (s.write f bytes).map (setFlags f flags) := by
  unfold write
  simp only [setFlags_file, setFlags_ext2]
  split
  · rfl
  · cases (s.ram.files f).ops with
    | none => rfl
    | some ops =>
      cases ops with
      | ramfsFile => exact ramfsStep_write_setFlags bytes h
      | ramfsDev => exact ramfsStep_write_setFlags bytes h
      | ramfsDir => rfl
      | ext2Dir => rfl
      | ext2File =>
        have hwrite (ino offset : ℕ) (buf : Ext2.Bytes) (n : ℕ) :
            Ext2.fileWrite ino flags.toNat offset buf n =
              Ext2.fileWrite ino (s.ram.files f).flags.toNat offset buf n := by
          simp only [Ext2.fileWrite, Ext2.writeOffset, (oAppend_eq h).2]
        rw [hwrite]
        cases s.ext2.exec (Ext2.fileWrite (s.ram.files f).priv (s.ram.files f).flags.toNat
            (s.ram.files f).offset (fun i => bytes.getD i 0) bytes.length) with
        | none => rfl
        | some r =>
          dsimp only
          rw [transferred_setFlags]
          rfl

theorem readData_setFlags (count : ℕ) :
    (s.setFlags f flags).readData f count = s.readData f count := by
  unfold readData
  simp only [setFlags_file, setFlags_ext2, ramfsFileRead_setFlags]

theorem call_setFlags (c : FileCall) (h : flags / 4 = (s.ram.files f).flags / 4) :
    (s.setFlags f flags).call f c = (s.call f c).map fun r => (r.1, r.2.setFlags f flags) := by
  cases c with
  | read count answer =>
    simp only [call, read_setFlags, readData_setFlags, map_map]
    rfl
  | write bytes =>
    simp only [call, write_setFlags bytes h, map_map]
    rfl

/-- A call leaves the flags of its object as they are. -/
theorem call_flags {c : FileCall} {data : List UInt8} (h : s.call f c = some (data, s')) :
    (s'.ram.files f).flags = (s.ram.files f).flags := by
  have hself := call_setFlags (s := s) (f := f) c rfl
  rw [setFlags_self, h, map_some, some.injEq, Prod.mk.injEq] at hself
  rw [hself.2, setFlags_file]

/-! ## Sequences of calls -/

/-- For every object on the ramfs or on ext2 and every sequence of reads and writes on it, the
access mode makes no difference: with any other mode in the flags the same calls return the same
data and leave the same files, and the same of all else but the flags. -/
theorem access_mode_unused (f : FileId) (flags : Int) (calls : List FileCall) (s : Handles)
    (h : flags / 4 = (s.ram.files f).flags / 4) :
    session f calls (s.setFlags f flags) =
      (session f calls s).map fun r => (r.1, r.2.setFlags f flags) := by
  induction calls generalizing s with
  | nil => rfl
  | cons c cs ih =>
    rw [session, session, call_setFlags c h]
    cases hcall : s.call f c with
    | none => rfl
    | some r =>
      obtain ⟨data, s1⟩ := r
      simp only [map_some]
      rw [ih s1 (by rw [call_flags hcall]; exact h)]
      cases session f cs s1 with
      | none => rfl
      | some r => rfl

/-- `"/a"` is created by an open with `O_RDONLY` in one kernel, and with `O_WRONLY` in another. -/
def openedWith (mode : Int) : Handles :=
  (quietBoot.openPath oneDisk [47, 97] (4 + mode)).getD quietBoot

theorem access_mode_unused_opened : session firstFile [.write [7], .read 1 0]
    ((openedWith 0).setFlags firstFile 6) =
      (session firstFile [.write [7], .read 1 0] (openedWith 0)).map fun r =>
        (r.1, r.2.setFlags firstFile 6) :=
  access_mode_unused firstFile 6 [.write [7], .read 1 0] (openedWith 0) (by decide +kernel)

/-- A write through the object that was opened with `O_RDONLY` makes the file longer, and a read
through one that was opened with `O_WRONLY` returns what another object has written. -/
theorem access_mode_ignored :
    accessMode ((openedWith 0).ram.files firstFile).flags = 0 ∧
      ((openedWith 0).ram.files firstFile).ops = some .ramfsFile ∧
      ((openedWith 0).ram.inodes ⟨1, by decide⟩).size = 0 ∧
      ((openedWith 0).write firstFile [7]).map (fun s =>
        ((s.ram.inodes ⟨1, by decide⟩).size, (s.ram.inodes ⟨1, by decide⟩).data 0)) = some (1, 7) ∧
      accessMode ((openedWith 1).ram.files firstFile).flags = 1 ∧
      (((openedWith 1).openPath oneDisk [47, 97] 2).bind fun s =>
        (s.write ⟨1, by decide⟩ [7]).map fun s => s.readData firstFile 1) = some [7] := by
  decide +kernel

end Handles

end Crius.Fs
