import Crius.Abi
import Crius.Fs.File
import Mathlib.Tactic

/-!
# The memory file system

`fs/ramfs/ramfs.c` and the file operations of `fs/ramfs/ramfs_ops.c`: a static table of
inodes, each with its name, its parent and, for a directory, the list of its entries. A
path is a C string, so a list of bytes without a zero. `cwd_inode` is 0: only
`ramfs_chdir`, which nothing calls, would change it.

A write that starts beyond `MAX_FILESIZE` computes a length close to `2^64`. It runs over
the end of `data[]` and then over all of memory, so it does not come back; this is the
result `none`.
-/
namespace Crius.Fs

open Abi Function

def maxInodes : Nat := 256
def maxName : Nat := 32
def maxFilesize : Nat := 65536
def maxDirEnt : Nat := 32

/-- An index of `inodes[]`. -/
abbrev InodeId := Fin maxInodes

/-- The root directory, inode 0. -/
def rootInode : InodeId := ⟨0, by decide⟩

/-- `T_FILE`, `T_DIR` and `T_DEV`; a slot that was never used has type 0. -/
inductive InodeType where
  | unset
  | file
  | dir
  | dev
  deriving DecidableEq, Repr

/-- The callbacks of a device, as addresses with 0 for `NULL`. -/
structure DevFns where
  read : Nat
  write : Nat
  ioctl : Nat
  deriving DecidableEq, Repr

/-- `struct ramfs_inode`; `entries` is the part of the array below `entry_count`. -/
structure Inode where
  used : Bool
  type : InodeType
  name : List UInt8
  parent : InodeId
  size : Nat
  data : Nat → UInt8
  entries : List InodeId
  dev : DevFns
  stream : Bool

abbrev Ramfs := InodeId → Inode

namespace Ramfs

variable (t : Ramfs) {t' : Ramfs} {r : Except Int InodeId} {path : List UInt8} {type : InodeType}
  {dev : DevFns}

def allocInode : Option InodeId := (List.finRange maxInodes).find? fun i => !(t i).used

/-- `dir_find`; a failure is a negative error number. -/
def dirFind (dir : InodeId) (name : List UInt8) : Except Int InodeId :=
  if (t dir).type ≠ .dir then .error (-ENOTDIR)
  else
    match (t dir).entries.find? fun i => (t i).used && (t i).name == name with
    | some i => .ok i
    | none => .error (-ENOENT)

/-- `dir_add`, with `none` for a full directory. -/
def dirAdd (dir idx : InodeId) : Option Ramfs :=
  if maxDirEnt ≤ (t dir).entries.length then none
  else if idx ∈ (t dir).entries then some t
  else some (Function.update t dir { t dir with entries := (t dir).entries ++ [idx] })

/-- The last entry takes the place of the removed one. -/
def swapRemove (l : List InodeId) (idx : InodeId) : List InodeId :=
  match l.getLast? with
  | none => l
  | some last => if idx ∈ l then (l.set (l.idxOf idx) last).dropLast else l

def dirRemove (dir idx : InodeId) : Ramfs :=
  Function.update t dir { t dir with entries := swapRemove (t dir).entries idx }

def slash : UInt8 := 47
def dot : UInt8 := 46

/-- The components of a path, which the loop of `resolve_path` cuts out one by one. -/
def components (path : List UInt8) : List (List UInt8) :=
  (path.splitOn slash).filter (· ≠ [])

/-- The rounds of `resolve_path`. -/
def walk : List (List UInt8) → InodeId → Except Int InodeId
  | [], cur => .ok cur
  | c :: cs, cur =>
    if c = [dot] then walk cs cur
    else if c = [dot, dot] then walk cs (if cur = rootInode then cur else (t cur).parent)
    else
      match dirFind t cur (c.take (maxName - 1)) with
      | .error e => .error e
      | .ok next => walk cs next

/-- `resolve_path` from inode 0 -/
def resolvePath (path : List UInt8) : Except Int InodeId := walk t (components path) rootInode

/-- The part of a path after its last slash. -/
def lastName (path : List UInt8) : List UInt8 := (path.reverse.takeWhile (· ≠ slash)).reverse

/-- The number of bytes before the last slash, which are copied into `parent_path`. -/
def parentLength (path : List UInt8) : Nat := path.length - (lastName path).length - 1

/-- The directory that a new name goes into. -/
def parentDir (path : List UInt8) : Except Int InodeId :=
  if slash ∈ path then
    match resolvePath t (if parentLength path = 0 then [slash] else path.take (parentLength path)) with
    | .error e => .error e
    | .ok parent => if (t parent).type ≠ .dir then .error (-ENOTDIR) else .ok parent
  else .ok rootInode

/-- The claimed slot of a new inode. -/
def claim (idx : InodeId) (type : InodeType) (parent : InodeId) (name : List UInt8)
    (dev : DevFns) (stream : Bool) : Ramfs :=
  Function.update t idx
    { used := true
      type := type
      name := name.take (maxName - 1)
      parent := parent
      size := 0
      data := (t idx).data
      entries := []
      dev := dev
      stream := stream }

def setUsed (idx : InodeId) (used : Bool) : Ramfs :=
  Function.update t idx { t idx with used := used }

/-- The common part of `ramfs_mkdir` and `create_entry`: the new inode, or an error. A
directory keeps the device fields of its slot. -/
def makeNode (path : List UInt8) (type : InodeType) (dev : DevFns) : Except Int InodeId × Ramfs :=
  match parentDir t path with
  | .error e => (.error e, t)
  | .ok parent =>
    let name := lastName path
    if name = [] then (.error (-ENOENT), t)
    else
      match dirFind t parent name with
      | .ok _ => (.error (-EEXIST), t)
      | .error _ =>
        match allocInode t with
        | none => (.error (-ENOSPC), t)
        | some idx =>
          let t' := if type = .dir then claim t idx .dir parent name (t idx).dev (t idx).stream
            else claim t idx type parent name dev false
          match dirAdd t' parent idx with
          | none => (.error (-ENOSPC), setUsed t' idx false)
          | some t'' => (.ok idx, t'')

/-- `ramfs_mkdir` -/
def mkdir (path : List UInt8) : Except Int InodeId × Ramfs := makeNode t path .dir ⟨0, 0, 0⟩

/-- `create_entry` -/
def createEntry (path : List UInt8) (type : InodeType) (dev : DevFns) : Except Int InodeId × Ramfs :=
  makeNode t path type dev

/-- `ramfs_create` -/
def create (path : List UInt8) : Except Int InodeId × Ramfs := createEntry t path .file ⟨0, 0, 0⟩

/-- `ramfs_create_dev` and `ramfs_create_dev_ioctl` -/
def createDev (path : List UInt8) (dev : DevFns) : Except Int InodeId × Ramfs :=
  createEntry t path .dev dev

/-- `ramfs_create_dev_stream` -/
def createDevStream (path : List UInt8) (dev : DevFns) : Except Int InodeId × Ramfs :=
  match createEntry t path .dev dev with
  | (.error e, t) => (.error e, t)
  | (.ok idx, t) =>
    match resolvePath t path with
    | .error _ => (.ok idx, t)
    | .ok found => (.ok idx, Function.update t found { t found with stream := true })

/-- The fields that `ramfs_delete` resets. -/
def clear (idx : InodeId) : Ramfs :=
  Function.update t idx { t idx with
    used := false
    name := []
    size := 0
    entries := []
    dev := ⟨0, 0, (t idx).dev.ioctl⟩ }

/-- `ramfs_delete` -/
def delete (path : List UInt8) : Int × Ramfs :=
  match resolvePath t path with
  | .error e => (e, t)
  | .ok idx =>
    if idx = rootInode then (-EBUSY, t)
    else if (t idx).type = .dir ∧ (t idx).entries ≠ [] then (-ENOTEMPTY, t)
    else (0, clear (dirRemove t (t idx).parent idx) idx)

/-- `ino->size = 0` -/
def truncate (idx : InodeId) : Ramfs := Function.update t idx { t idx with size := 0 }

/-! ## What a creation can do -/

/-- The inode that a successful creation puts into a free slot. -/
structure NewNode (idx : InodeId) (type : InodeType) (parent : InodeId) (node : Inode) : Prop where
  free : (t idx).used = false
  used : node.used = true
  type : node.type = type
  parent : node.parent = parent
  size : node.size = 0
  data : node.data = (t idx).data
  entries : node.entries = []

/-- A creation that fails changes at most a slot that stays free. -/
structure FailedNode (t' : Ramfs) : Prop where
  used : ∀ i, (t' i).used = (t i).used
  same : ∀ i, (t i).used = true → t' i = t i
  data : ∀ i, (t' i).data = (t i).data
  size : ∀ i, (t' i).size = (t i).size ∨ (t' i).size = 0

theorem makeNode_cases (h : makeNode t path type dev = (r, t')) :
    (∃ e, r = .error e ∧ FailedNode t t') ∨
      ∃ idx d node, r = .ok idx ∧ parentDir t path = .ok d ∧ NewNode t idx type d node ∧
        dirAdd (update t idx node) d idx = some t' ∧ lastName path ≠ [] ∧
        (∃ e, dirFind t d (lastName path) = .error e) ∧
        node.name = (lastName path).take (maxName - 1) := by
  have hfail : FailedNode t t := ⟨fun i => rfl, fun i _ => rfl, fun i => rfl, fun i => .inl rfl⟩
  unfold makeNode at h
  split at h
  · next e he =>
    cases h
    exact .inl ⟨e, rfl, hfail⟩
  · next d hd =>
    dsimp only at h
    split at h
    · cases h
      exact .inl ⟨_, rfl, hfail⟩
    · next hname =>
      split at h
      · cases h
        exact .inl ⟨_, rfl, hfail⟩
      · next e hfind =>
        split at h
        · cases h
          exact .inl ⟨_, rfl, hfail⟩
        · next idx hidx =>
          have hfree : (t idx).used = false := by simpa using List.find?_some hidx
          obtain ⟨node, hnode, hstored, heq⟩ : ∃ node, NewNode t idx type d node ∧
              node.name = (lastName path).take (maxName - 1) ∧
              (if type = .dir then claim t idx .dir d (lastName path) (t idx).dev (t idx).stream
                else claim t idx type d (lastName path) dev false) = update t idx node := by
            split_ifs with htype
            · refine ⟨_, ?_, rfl, rfl⟩
              exact ⟨hfree, rfl, htype.symm, rfl, rfl, rfl, rfl⟩
            · refine ⟨_, ?_, rfl, rfl⟩
              exact ⟨hfree, rfl, rfl, rfl, rfl, rfl, rfl⟩
          rw [heq] at h
          split at h
          · cases h
            refine .inl ⟨_, rfl, ?_⟩
            have hother (i : InodeId) (hi : i ≠ idx) :
                setUsed (update t idx node) idx false i = t i := by
              simp [setUsed, hi]
            refine ⟨fun i => ?_, fun i hi => hother i ?_, fun i => ?_, fun i => ?_⟩
            · by_cases hi : i = idx
              · simp [hi, setUsed, hfree]
              · rw [hother i hi]
            · rintro rfl
              rw [hi] at hfree
              cases hfree
            · by_cases hi : i = idx
              · simp [hi, setUsed, hnode.data]
              · rw [hother i hi]
            · by_cases hi : i = idx
              · simp [hi, setUsed, hnode.size]
              · exact .inl (by rw [hother i hi])
          · next t'' hadd =>
            cases h
            exact .inr ⟨idx, d, node, rfl, hd, hnode, hadd, hname, ⟨e, hfind⟩, hstored⟩

theorem dirAdd_cases {dir idx : InodeId} (h : dirAdd t dir idx = some t') :
    (idx ∈ (t dir).entries ∧ t' = t) ∨
      (idx ∉ (t dir).entries ∧
        t' = update t dir { t dir with entries := (t dir).entries ++ [idx] }) := by
  unfold dirAdd at h
  split at h
  · cases h
  · split at h
    · next hmem => exact .inl ⟨hmem, (Option.some.inj h).symm⟩
    · next hmem => exact .inr ⟨hmem, (Option.some.inj h).symm⟩

/-- What a creation does to the contents of the inodes. -/
structure Created (r : Except Int InodeId) (t' : Ramfs) : Prop where
  used : ∀ i, (t i).used = true → (t' i).used = true
  data : ∀ i, (t' i).data = (t i).data
  size : ∀ i, (t' i).size = (t i).size ∨ (t' i).size = 0
  new : ∀ idx, r = .ok idx → (t idx).used = false ∧ (t' idx).size = 0

theorem makeNode_created (h : makeNode t path type dev = (r, t')) : Created t r t' := by
  rcases makeNode_cases t h with ⟨e, rfl, hf⟩ | ⟨idx, d, node, rfl, -, hnode, hadd, -⟩
  · refine ⟨fun i hi => (hf.used i).trans hi, hf.data, hf.size, fun idx hidx => ?_⟩
    cases hidx
  · -- linking the new inode changes the entries of its directory only
    have hlink (i : InodeId) : (t' i).used = (update t idx node i).used ∧
        (t' i).data = (update t idx node i).data ∧
        (t' i).size = (update t idx node i).size := by
      rcases dirAdd_cases _ hadd with ⟨-, rfl⟩ | ⟨-, rfl⟩
      · exact ⟨rfl, rfl, rfl⟩
      · by_cases hid : i = d
        · subst hid
          rw [update_self]
          exact ⟨rfl, rfl, rfl⟩
        · rw [update_of_ne hid]
          exact ⟨rfl, rfl, rfl⟩
    refine ⟨fun i hi => ?_, fun i => ?_, fun i => ?_, fun j hj => ?_⟩
    · rw [(hlink i).1]
      by_cases hii : i = idx
      · rw [hii, update_self]
        exact hnode.used
      · rw [update_of_ne hii]
        exact hi
    · rw [(hlink i).2.1]
      by_cases hii : i = idx
      · rw [hii, update_self]
        exact hnode.data
      · rw [update_of_ne hii]
    · rw [(hlink i).2.2]
      by_cases hii : i = idx
      · rw [hii, update_self]
        exact .inr hnode.size
      · rw [update_of_ne hii]
        exact .inl rfl
    · obtain rfl := Except.ok.inj hj
      rw [(hlink idx).2.2, update_self]
      exact ⟨hnode.free, hnode.size⟩

/-- What a deletion leaves: the inode is free, and its directory has one entry less. -/
structure Deleted (idx : InodeId) (t' : Ramfs) : Prop where
  used : (t' idx).used = false
  size : (t' idx).size = 0
  parent : (t' idx).parent = (t idx).parent
  other : ∀ i, i ≠ idx → t' i = { t i with
    entries := if i = (t idx).parent then swapRemove (t i).entries idx else (t i).entries }

theorem delete_cases (path : List UInt8) : (delete t path).2 = t ∨
    ∃ idx, resolvePath t path = .ok idx ∧ idx ≠ rootInode ∧
      ((t idx).type = .dir → (t idx).entries = []) ∧ Deleted t idx (delete t path).2 := by
  unfold delete
  split
  · exact .inl rfl
  · next idx hr =>
    split_ifs with hroot hfull
    · exact .inl rfl
    · exact .inl rfl
    · have hrem (i : InodeId) : dirRemove t (t idx).parent idx i = { t i with
          entries := if i = (t idx).parent then swapRemove (t i).entries idx
            else (t i).entries } := by
        split_ifs with hi
        · rw [hi, dirRemove, update_self]
        · rw [dirRemove, update_of_ne hi]
      refine .inr ⟨idx, hr, hroot, fun hdir => not_not.mp fun hne => hfull ⟨hdir, hne⟩, ?_⟩
      refine ⟨by simp [clear], by simp [clear], by simp [clear, hrem], fun i hi => ?_⟩
      exact (update_of_ne hi _ _).trans (hrem i)

/-- A deletion forgets sizes, and no other inode goes out of use. -/
theorem delete_spec (path : List UInt8) :
    (∀ i, ((delete t path).2 i).size = (t i).size ∧ ((delete t path).2 i).data = (t i).data ∨
      ((delete t path).2 i).size = 0) ∧
      ∀ i, (t i).used = true → resolvePath t path ≠ .ok i → ((delete t path).2 i).used = true := by
  rcases delete_cases t path with heq | ⟨idx, hr, -, -, hdel⟩
  · rw [heq]
    exact ⟨fun i => .inl ⟨rfl, rfl⟩, fun i hi _ => hi⟩
  refine ⟨fun i => ?_, fun i hi hne => ?_⟩
  · by_cases hii : i = idx
    · exact .inr (hii ▸ hdel.size)
    · rw [hdel.other i hii]
      exact .inl ⟨rfl, rfl⟩
  · rw [hdel.other i fun hii => hne (hii ▸ hr)]
    exact hi

end Ramfs

/-- The part of the path before the last slash fits `parent_path`. -/
def FitsParentPath (path : List UInt8) : Prop := Ramfs.parentLength path < maxName * 4

instance (path : List UInt8) : Decidable (FitsParentPath path) := inferInstanceAs (Decidable (_ < _))

/-- The table after `ramfs_init`. -/
def ramfsInit : Ramfs := fun i =>
  { used := i = rootInode
    type := if i = rootInode then .dir else .unset
    name := if i = rootInode then [Ramfs.slash] else []
    parent := rootInode
    size := 0
    data := fun _ => 0
    entries := []
    dev := ⟨0, 0, 0⟩
    stream := false }

/-- `if (offset + len > MAX_FILESIZE) len = MAX_FILESIZE - offset`, in 64 bits -/
def writeLength (offset len : Nat) : Nat :=
  if maxFilesize < (offset + len) % 2 ^ 64 then (maxFilesize + 2 ^ 64 - offset) % 2 ^ 64 else len

/-- `(int)n` -/
def toInt32 (n : Nat) : Int := Int.bmod n (2 ^ 32)

/-- Bytes copied into `data[]` from `offset` on. -/
def copyIn (data : Nat → UInt8) (offset : Nat) (bytes : List UInt8) : Nat → UInt8 := fun i =>
  if offset ≤ i ∧ i < offset + bytes.length then bytes.getD (i - offset) 0 else data i

/-- `ramfs_write_at`; the bytes are those at the caller's pointer. -/
def ramfsWriteAt (t : Ramfs) (idx : InodeId) (offset : Nat) (bytes : List UInt8) :
    Option (Int × Ramfs) :=
  if (t idx).type ≠ .file then some (-EISDIR, t)
  else
    let len := writeLength offset bytes.length
    if maxFilesize < offset + len then none
    else some (toInt32 len, Function.update t idx { t idx with
      data := copyIn (t idx).data offset (bytes.take len)
      size := max (t idx).size (offset + len) })

end Crius.Fs
