import Crius.Fs.Ramfs
import Crius.Lib.Run

/-!
# Open files on the ramfs

`fs/ramfs/ramfs_ops.c` under `vfs_open`, `file_read`, `file_write`, `file_get` and
`file_put`, for paths on the ramfs. An open file holds the index of its inode. The state
keeps a log of what happened to each inode, latest event first, against which the results
of reads and writes are judged.

What a device answers to a read does not come from file data; it is an argument of the
operation. A directory is read through a handle, which touches no inode.
-/
namespace Crius.Fs

open Abi Lib Function

inductive RamfsEvent where
  | created (i : InodeId)
  | truncated (i : InodeId)
  | wrote (i : InodeId) (start : Nat) (bytes : List UInt8)
  | opened (f : FileId) (i : InodeId)
  deriving DecidableEq, Repr

structure RamfsState where
  inodes : Ramfs
  files : FilePool
  log : List RamfsEvent

namespace RamfsState

def setFile (s : RamfsState) (f : FileId) (o : File) : RamfsState :=
  { s with files := Function.update s.files f o }

/-- A creation, with its event. -/
def made (s : RamfsState) (r : Except Int InodeId × Ramfs) : RamfsState :=
  match r with
  | (.ok idx, t) => { s with inodes := t, log := .created idx :: s.log }
  | (.error _, t) => { s with inodes := t }

def truncate (s : RamfsState) (idx : InodeId) : RamfsState :=
  { s with inodes := s.inodes.truncate idx, log := .truncated idx :: s.log }

end RamfsState

/-- The operation table that an open on an inode of this type sets. -/
def opsOf : InodeType → FileOps
  | .dev => .ramfsDev
  | .dir => .ramfsDir
  | .file | .unset => .ramfsFile

/-- The end of `ramfs_fs_open`, on the inode that was found. -/
def openInode (s : RamfsState) (idx : InodeId) (flags : Int) :
    Option (FileOps × InodeId) × RamfsState :=
  if (s.inodes idx).used then
    (some (opsOf (s.inodes idx).type, idx),
      if oTrunc flags ∧ (s.inodes idx).type = .file then s.truncate idx else s)
  else (none, s)

def ramfsFsOpen (s : RamfsState) (path : List UInt8) (flags : Int) :
    Option (FileOps × InodeId) × RamfsState :=
  match s.inodes.resolvePath path with
  | .ok idx => openInode s idx flags
  | .error _ =>
    if oCreat flags then
      match s.inodes.create path with
      | (.error e, t) => (none, s.made (.error e, t))
      | (.ok new, t) =>
        match t.resolvePath path with
        | .error _ => (none, s.made (.ok new, t))
        | .ok idx => openInode (s.made (.ok new, t)) idx flags
    else (none, s)

/-- A successful open; a directory keeps a handle instead of its inode, for which there may
be no memory. -/
def finishRamfsOpen (s : RamfsState) (f : FileId) (flags : Int) (handle : Nat) (ops : FileOps)
    (idx : InodeId) : RamfsState :=
  let o : File := ⟨true, 1, flags, 0, some ops, idx.val⟩
  if ops.readdir then
    if handle = 0 then s.setFile f { o with used := false, refcount := 0, ops := none, priv := 0 }
    else s.setFile f { o with priv := handle }
  else { s.setFile f o with log := .opened f idx :: s.log }

/-- `vfs_open` for the ramfs. With `O_CREAT` a failed open is tried once more. -/
def openRamfs (s : RamfsState) (path : List UInt8) (flags : Int) (handle : Nat) : RamfsState :=
  match fileAlloc s.files with
  | none => s
  | some (f, _) =>
    match ramfsFsOpen s path flags with
    | (some (ops, idx), s) => finishRamfsOpen s f flags handle ops idx
    | (none, s) =>
      let closed : File := ⟨false, 0, flags, 0, none, 0⟩
      if oCreat flags then
        match ramfsFsOpen s path flags with
        | (some (ops, idx), s) => finishRamfsOpen s f flags handle ops idx
        | (none, s) => s.setFile f closed
      else s.setFile f closed

/-- The inode that an open file reads and writes. -/
def inodeOf (o : File) : InodeId := Fin.ofNat 256 o.priv

/-- `ramfs_file_read`: the return value, the bytes and the new state. -/
def ramfsFileRead (s : RamfsState) (f : FileId) (count : Nat) : Int × List UInt8 × RamfsState :=
  let o := s.files f
  let ino := s.inodes (inodeOf o)
  if ino.used = false then (-ENOENT, [], s)
  else if ino.size ≤ o.offset then (0, [], s)
  else
    let avail := min (ino.size - o.offset) count
    (avail, (List.range avail).map fun i => ino.data (o.offset + i),
      s.setFile f { o with offset := (o.offset + avail) % 2 ^ 64 })

/-- The place where `ramfs_file_write` starts, if it gets as far. -/
def writeStart (s : RamfsState) (f : FileId) : Option Nat :=
  let o := s.files f
  if oAppend o.flags then
    if (s.inodes (inodeOf o)).used then some (s.inodes (inodeOf o)).size else none
  else some (o.offset % 2 ^ 64)

/-- `ramfs_file_write` -/
def ramfsFileWrite (s : RamfsState) (f : FileId) (bytes : List UInt8) :
    Option (Int × RamfsState) :=
  let o := s.files f
  match writeStart s f with
  | none => some (-ENOENT, s)
  | some start =>
    match ramfsWriteAt s.inodes (inodeOf o) start bytes with
    | none => none
    | some (ret, t) =>
      if (s.inodes (inodeOf o)).type = .file then
        some (ret,
          { inodes := t
            files := Function.update s.files f
              { o with offset := (start + bytes.length) % 2 ^ 64 }
            log := .wrote (inodeOf o) start (bytes.take (writeLength start bytes.length)) :: s.log })
      else some (ret, s)

/-- `ramfs_dev_read`; the device returns `answer`. -/
def ramfsDevRead (s : RamfsState) (f : FileId) (answer : Int) : Int × RamfsState :=
  let o := s.files f
  let ino := s.inodes (inodeOf o)
  if ino.used = false ∨ ino.dev.read = 0 then (-ENOENT, s)
  else if ino.stream = false ∧ 0 < o.offset then (0, s)
  else
    (answer, if 0 < answer then s.setFile f { o with offset := (o.offset + answer.toNat) % 2 ^ 64 }
      else s)

inductive RamfsFileOp where
  | open (path : List UInt8) (flags : Int) (handle : Nat)
  | close (f : FileId)
  | share (f : FileId)
  | read (f : FileId) (count : Nat) (answer : Int)
  | write (f : FileId) (bytes : List UInt8)
  | mkdir (path : List UInt8)
  | create (path : List UInt8)
  | unlink (path : List UInt8)
  | truncate (path : List UInt8)

/-- The object is open, with the given operations. -/
def IsOpen (s : RamfsState) (f : FileId) (ops : FileOps) : Prop :=
  (s.files f).used = true ∧ (s.files f).ops = some ops

instance (s : RamfsState) (f : FileId) (ops : FileOps) : Decidable (IsOpen s f ops) :=
  inferInstanceAs (Decidable (_ ∧ _))

/-- `ramfs_fs_truncate` -/
def ramfsTruncate (s : RamfsState) (path : List UInt8) : RamfsState :=
  match s.inodes.resolvePath path with
  | .error _ => s
  | .ok idx => if (s.inodes idx).used then s.truncate idx else s

/-- An open that creates its file has the path of the parent in `parent_path`. -/
def OpenFits (s : RamfsState) (path : List UInt8) (flags : Int) : Prop :=
  oCreat flags = true → (fileAlloc s.files).isNone = true ∨
    (s.inodes.resolvePath path).toBool = true ∨ FitsParentPath path

instance (s : RamfsState) (path : List UInt8) (flags : Int) : Decidable (OpenFits s path flags) :=
  inferInstanceAs (Decidable (_ → _))

/-- As in `ramfsStep`, a creation with a longer path has no next state. -/
def ramfsFileStep (s : RamfsState) : RamfsFileOp → Option RamfsState
  | .open path flags handle =>
    if OpenFits s path flags then some (openRamfs s path flags handle) else none
  | .close f => if (s.files f).used then some { s with files := (filePut f s.files).2 } else none
  | .share f => if (s.files f).used then some { s with files := fileGet f s.files } else none
  | .read f count answer =>
    if IsOpen s f .ramfsFile then some (ramfsFileRead s f count).2.2
    else if IsOpen s f .ramfsDev then some (ramfsDevRead s f answer).2
    else some s
  | .write f bytes =>
    if IsOpen s f .ramfsFile then (ramfsFileWrite s f bytes).map (·.2) else some s
  | .mkdir path => if FitsParentPath path then some (s.made (s.inodes.mkdir path)) else none
  | .create path => if FitsParentPath path then some (s.made (s.inodes.create path)) else none
  | .unlink path => some { s with inodes := (s.inodes.delete path).2 }
  | .truncate path => some (ramfsTruncate s path)

/-! ## What a step can do -/

/-- Creations and truncations, one after the other. -/
inductive Touch (s : RamfsState) : RamfsState → Prop
  | refl : Touch s s
  | made {s₁ : RamfsState} {r : Except Int InodeId × Ramfs} (h : Touch s s₁)
      (hc : s₁.inodes.Created r.1 r.2) : Touch s (s₁.made r)
  | truncate {s₁ : RamfsState} (h : Touch s s₁) (idx : InodeId) : Touch s (s₁.truncate idx)

variable {s s' : RamfsState} {r : Option (FileOps × InodeId)} {op : RamfsFileOp}

theorem Touch.trans {s1 s2 : RamfsState} (h : Touch s s1) (h' : Touch s1 s2) : Touch s s2 := by
  induction h' with
  | refl => exact h
  | made _ hc ih => exact ih.made hc
  | truncate _ idx ih => exact ih.truncate idx

theorem Touch.files (h : Touch s s') : s'.files = s.files := by
  induction h with
  | refl => rfl
  | @made s1 r _ _ ih =>
    rcases r with ⟨_ | _, _⟩
    · exact ih
    · exact ih
  | truncate _ _ ih => exact ih

theorem openInode_spec {idx : InodeId} {flags : Int} (h : openInode s idx flags = (r, s')) :
    Touch s s' ∧ ∀ ops i, r = some (ops, i) → (s'.inodes i).used = true := by
  unfold openInode at h
  split at h
  · next hused =>
    cases h
    split
    · refine ⟨.truncate .refl idx, fun ops i hi => ?_⟩
      cases hi
      simpa [RamfsState.truncate, Ramfs.truncate] using hused
    · refine ⟨.refl, fun ops i hi => ?_⟩
      cases hi
      exact hused
  · cases h
    exact ⟨.refl, fun ops i hi => by cases hi⟩

theorem ramfsFsOpen_spec {path : List UInt8} {flags : Int} (h : ramfsFsOpen s path flags = (r, s')) :
    Touch s s' ∧ ∀ ops i, r = some (ops, i) → (s'.inodes i).used = true := by
  unfold ramfsFsOpen at h
  split at h
  · exact openInode_spec h
  · split at h
    · split at h
      · next e t hc =>
        cases h
        exact ⟨.made .refl (s.inodes.makeNode_created hc), fun ops i hi => by cases hi⟩
      · next new t hc =>
        have hmade : Touch s (s.made (.ok new, t)) :=
          .made .refl (s.inodes.makeNode_created hc)
        split at h
        · cases h
          exact ⟨hmade, fun ops i hi => by cases hi⟩
        · obtain ⟨htouch, hused⟩ := openInode_spec h
          exact ⟨hmade.trans htouch, hused⟩
    · cases h
      exact ⟨.refl, fun ops i hi => by cases hi⟩

/-- What an open leaves: nothing at all, an object that is free again or holds a directory
handle, or an object that holds an inode in use. -/
theorem openRamfs_cases (s : RamfsState) (path : List UInt8) (flags : Int) (handle : Nat) :
    openRamfs s path flags handle = s ∨ ∃ f s1, (s.files f).used = false ∧ Touch s s1 ∧
      ((∃ o : File, (o.used = true → o.ops = some .ramfsDir ∨ o.ops = some .ext2Dir) ∧
          openRamfs s path flags handle = s1.setFile f o) ∨
        ∃ ops i, ops.readdir = false ∧ (s1.inodes i).used = true ∧
          openRamfs s path flags handle =
            { s1.setFile f ⟨true, 1, flags, 0, some ops, i.val⟩ with
              log := .opened f i :: s1.log }) := by
  have hfinish (s1 : RamfsState) (f : FileId) (ops : FileOps) (i : InodeId)
      (hi : (s1.inodes i).used = true) :
      (∃ o : File, (o.used = true → o.ops = some .ramfsDir ∨ o.ops = some .ext2Dir) ∧
          finishRamfsOpen s1 f flags handle ops i = s1.setFile f o) ∨
        ∃ ops' i', ops'.readdir = false ∧ (s1.inodes i').used = true ∧
          finishRamfsOpen s1 f flags handle ops i =
            { s1.setFile f ⟨true, 1, flags, 0, some ops', i'.val⟩ with
              log := .opened f i' :: s1.log } := by
    unfold finishRamfsOpen
    cases hread : ops.readdir with
    | true =>
      left
      by_cases hh : handle = 0
      · simp only [if_pos hh, if_true]
        refine ⟨_, ?_, rfl⟩
        nofun
      · simp only [if_neg hh, if_true]
        refine ⟨_, fun _ => ?_, rfl⟩
        cases ops <;> simp_all [FileOps.readdir]
    | false => exact .inr ⟨ops, i, hread, hi, rfl⟩
  unfold openRamfs
  split
  · exact .inl rfl
  · next f pool hf =>
    right
    have hfree := fileAlloc_unused hf
    split
    · next ops i s1 ho =>
      obtain ⟨htouch, hused⟩ := ramfsFsOpen_spec ho
      exact ⟨f, s1, hfree, htouch, hfinish s1 f ops i (hused ops i rfl)⟩
    · next s1 ho =>
      obtain ⟨htouch, -⟩ := ramfsFsOpen_spec ho
      split
      · split
        · next ops i s2 ho' =>
          obtain ⟨htouch', hused⟩ := ramfsFsOpen_spec ho'
          exact ⟨f, s2, hfree, htouch.trans htouch', hfinish s2 f ops i (hused ops i rfl)⟩
        · next s2 ho' =>
          obtain ⟨htouch', -⟩ := ramfsFsOpen_spec ho'
          refine ⟨f, s2, hfree, htouch.trans htouch', .inl ⟨_, ?_, rfl⟩⟩
          nofun
      · refine ⟨f, s1, hfree, htouch, .inl ⟨_, ?_, rfl⟩⟩
        nofun

/-- Objects that stay open keep what they were opened on; a new one is a directory. -/
def KeepsObjects (fs fs' : FilePool) : Prop :=
  ∀ f, (fs' f).used = true → (fs' f).ops = some .ramfsDir ∨ (fs' f).ops = some .ext2Dir ∨
    (fs f).used = true ∧ (fs' f).ops = (fs f).ops ∧ (fs' f).priv = (fs f).priv

theorem KeepsObjects.refl (fs : FilePool) : KeepsObjects fs fs :=
  fun _ hf => .inr (.inr ⟨hf, rfl, rfl⟩)

theorem KeepsObjects.update {fs : FilePool} {f : FileId} {o : File}
    (h : o.used = true → o.ops = some .ramfsDir ∨ o.ops = some .ext2Dir ∨
      (fs f).used = true ∧ o.ops = (fs f).ops ∧ o.priv = (fs f).priv) :
    KeepsObjects fs (update fs f o) := by
  intro g hg
  by_cases hgf : g = f
  · subst hgf
    rw [update_self] at hg ⊢
    exact h hg
  · rw [update_of_ne hgf] at hg ⊢
    exact .inr (.inr ⟨hg, rfl, rfl⟩)

theorem keepsObjects_filePut (fs : FilePool) (f : FileId) : KeepsObjects fs (filePut f fs).2 := by
  unfold filePut
  dsimp only
  split
  · exact .update nofun
  · exact .update fun hu => .inr (.inr ⟨hu, rfl, rfl⟩)

/-- What a step can do. -/
inductive FileEffect (s : RamfsState) (op : RamfsFileOp) (s' : RamfsState) : Prop
  | touched {s₁ : RamfsState} (touch : Touch s s₁) (inodes : s'.inodes = s₁.inodes)
      (log : s'.log = s₁.log) (files : KeepsObjects s₁.files s'.files)
  | opened {s₁ : RamfsState} {f : FileId} {i : InodeId} {flags : Int} {ops : FileOps}
      (touch : Touch s s₁) (used : (s₁.inodes i).used = true) (free : (s.files f).used = false)
      (state : s' = { s₁.setFile f ⟨true, 1, flags, 0, some ops, i.val⟩ with
        log := .opened f i :: s₁.log })
  | wrote {f : FileId} {bytes : List UInt8} {start : Nat} {ret : Int} {t : Ramfs}
      (call : op = .write f bytes) (object : IsOpen s f .ramfsFile)
      (begins : writeStart s f = some start)
      (file : (s.inodes (inodeOf (s.files f))).type = .file)
      (write : ramfsWriteAt s.inodes (inodeOf (s.files f)) start bytes = some (ret, t))
      (state : s' = ⟨t, Function.update s.files f
          { s.files f with offset := (start + bytes.length) % 2 ^ 64 },
        .wrote (inodeOf (s.files f)) start (bytes.take (writeLength start bytes.length)) :: s.log⟩)
  | deleted {path : List UInt8} (call : op = .unlink path)
      (state : s' = { s with inodes := (s.inodes.delete path).2 })

theorem FileEffect.files (hi : s'.inodes = s.inodes) (hl : s'.log = s.log)
    (hf : KeepsObjects s.files s'.files) : FileEffect s op s' :=
  .touched .refl hi hl hf

theorem ramfsFileStep_effect (h : ramfsFileStep s op = some s') : FileEffect s op s' := by
  cases op with
  | «open» path flags handle =>
    obtain rfl := Option.some.inj (Option.ite_none_right_eq_some.mp h).2
    rcases openRamfs_cases s path flags handle with heq | ⟨f, s1, hfree, htouch, hres⟩
    · rw [heq]
      exact .files rfl rfl (.refl _)
    · rcases hres with ⟨o, ho, heq⟩ | ⟨ops, i, -, hused, heq⟩
      · rw [heq]
        refine .touched htouch rfl rfl (.update fun hu => ?_)
        rcases ho hu with hdir | hdir
        · exact .inl hdir
        · exact .inr (.inl hdir)
      · exact .opened htouch hused hfree heq
  | close f =>
    simp only [ramfsFileStep] at h
    split at h
    · cases h
      exact .files rfl rfl (keepsObjects_filePut _ f)
    · cases h
  | share f =>
    simp only [ramfsFileStep] at h
    split at h
    · cases h
      exact .files rfl rfl (.update fun hu => .inr (.inr ⟨hu, rfl, rfl⟩))
    · cases h
  | read f count answer =>
    simp only [ramfsFileStep] at h
    split at h
    · next ho =>
      cases h
      unfold ramfsFileRead
      dsimp only
      split
      · exact .files rfl rfl (.refl _)
      · split
        · exact .files rfl rfl (.refl _)
        · exact .files rfl rfl (.update fun _ => .inr (.inr ⟨ho.1, rfl, rfl⟩))
    · split at h
      · next ho =>
        cases h
        unfold ramfsDevRead
        dsimp only
        split
        · exact .files rfl rfl (.refl _)
        · split
          · exact .files rfl rfl (.refl _)
          · dsimp only
            split
            · exact .files rfl rfl (.update fun _ => .inr (.inr ⟨ho.1, rfl, rfl⟩))
            · exact .files rfl rfl (.refl _)
      · cases h
        exact .files rfl rfl (.refl _)
  | write f bytes =>
    simp only [ramfsFileStep] at h
    split at h
    · next ho =>
      obtain ⟨⟨ret, s1⟩, hw, rfl⟩ := Option.map_eq_some_iff.mp h
      unfold ramfsFileWrite at hw
      dsimp only at hw
      split at hw
      · cases hw
        exact .files rfl rfl (.refl _)
      · next start hstart =>
        split at hw
        · cases hw
        · next ret' t hwrite =>
          split at hw
          · next htype =>
            cases hw
            exact .wrote rfl ho hstart htype hwrite rfl
          · cases hw
            exact .files rfl rfl (.refl _)
    · cases h
      exact .files rfl rfl (.refl _)
  | mkdir path =>
    obtain rfl := Option.some.inj (Option.ite_none_right_eq_some.mp h).2
    have ht : Touch s (s.made (s.inodes.mkdir path)) :=
      .made .refl (s.inodes.makeNode_created rfl)
    refine .touched ht rfl rfl (.refl _)
  | create path =>
    obtain rfl := Option.some.inj (Option.ite_none_right_eq_some.mp h).2
    have ht : Touch s (s.made (s.inodes.create path)) :=
      .made .refl (s.inodes.makeNode_created rfl)
    refine .touched ht rfl rfl (.refl _)
  | unlink path =>
    cases h
    exact .deleted rfl rfl
  | truncate path =>
    cases h
    unfold ramfsTruncate
    split
    · exact .files rfl rfl (.refl _)
    · split
      · exact .touched (.truncate .refl _) rfl rfl (.refl _)
      · exact .files rfl rfl (.refl _)

end Crius.Fs
