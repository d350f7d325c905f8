import Crius.Ext2.Driver
import Crius.Fs.Mount
import Crius.Fs.RamfsFiles

/-!
# Handles and mounts

`vfs_mount`, `vfs_umount`, `vfs_open`, `file_read`, `file_write` and `file_put` together,
over both file systems. A directory handle points to the slot of its mount, and an open
ext2 file holds the number of its inode only. Neither counts as a use of the mount, so an
unmount goes through while they are open.

The state keeps three things the kernel does not have: the number of the mount that
filled each slot, the device of the mount that each object was opened on, and a record of
the calls through handles.
-/
namespace Crius.Fs

open Abi Lib.Run Option List

/-- `struct dir_handle`, with the number of its mount. -/
structure DirHandle where
  position : Nat
  slot : Slot
  relPath : List UInt8
  mountNo : Nat

/-- A call through a handle: a `readdir`, and whether the slot still held the mount of the
handle; or a transfer of file data, with the device of the file and those that were used. -/
inductive HandleEvent where
  | readdir (held : Bool)
  | transfer (origin : Option Nat) (devices : List Nat)
  deriving DecidableEq, Repr

def HandleEvent.Ok : HandleEvent → Prop
  | .readdir held => held = true
  | .transfer origin devices => ∀ d ∈ devices, origin = some d

structure Handles where
  mounts : MountTable
  mountNo : Slot → Nat
  mountsSoFar : Nat
  ext2 : Ext2.Driver
  ram : RamfsState
  handles : Nat → DirHandle
  nextHandle : Nat
  origin : FileId → Option Nat
  events : List HandleEvent

/-- The kernel around it. -/
structure HandleEnv where
  registeredFs : List FsType
  blockDeviceFind : List UInt8 → Option Nat
  cwd : Option (List UInt8)

/-- The callbacks of the two file systems; a driver that has faulted is `none`. -/
def fsDrivers : FsDrivers (Option Ext2.Driver) where
  mount
    | .ramfs, _, e => (some 0, e)
    | .ext2, bd, e =>
      match e.bind (Ext2.Driver.fsMount bd) with
      | none => (none, none)
      | some (ctx, d) => (ctx, some d)
  unmount
    | .ramfs => none
    | .ext2 => some fun ctx e => e.bind (Ext2.Driver.fsUnmount ctx)

def HandleEnv.vfs (E : HandleEnv) : VfsEnv (Option Ext2.Driver) :=
  ⟨fsDrivers, E.registeredFs, E.blockDeviceFind, E.cwd⟩

namespace Handles

variable (E : HandleEnv)

def mount (device path : List UInt8) (s : Handles) : Option Handles :=
  match vfsMount E.vfs device path ⟨s.mounts, some s.ext2⟩, s.mounts.freeSlot with
  | (_, ⟨_, none⟩), _ => none
  | (ret, ⟨mounts, some d⟩), free =>
    let s := { s with mounts := mounts, ext2 := d }
    match free with
    | some j =>
      if ret = 0 then
        some { s with
          mountNo := Function.update s.mountNo j s.mountsSoFar
          mountsSoFar := s.mountsSoFar + 1 }
      else some s
    | none => some s

def umount (path : List UInt8) (s : Handles) : Option Handles :=
  match vfsUmount E.vfs path ⟨s.mounts, some s.ext2⟩ with
  | (_, ⟨_, none⟩) => none
  | (_, ⟨mounts, some d⟩) => some { s with mounts := mounts, ext2 := d }

/-- The `open` callback of a slot: the operations and the private word of the object. -/
def openOn (i : Slot) (rel : List UInt8) (flags : Int) (s : Handles) :
    Option (Option (FileOps × Nat) × Handles) :=
  match (s.mounts i).ops with
  | none => none
  | some .ramfs =>
    match ramfsFsOpen s.ram rel flags with
    | (none, ram) => some (none, { s with ram := ram })
    | (some (ops, idx), ram) => some (some (ops, idx.val), { s with ram := ram })
  | some .ext2 =>
    match s.ext2.callback (s.mounts i).fsPrivate (Ext2.fsOpen rel flags) with
    | none => none
    | some (none, d) => some (none, { s with ext2 := d })
    | some (some (ino, isDir), d) =>
      some (some (if isDir then .ext2Dir else .ext2File, ino), { s with ext2 := d })

def setFile (f : FileId) (o : File) (s : Handles) : Handles := { s with ram := s.ram.setFile f o }

/-- The end of a successful open. A directory gets a handle; without memory for it the
object goes back to the pool. -/
def finish (f : FileId) (i : Slot) (rel : List UInt8) (flags : Int) (ops : FileOps) (priv : Nat)
    (s : Handles) : Option Handles :=
  let o : File := ⟨true, 1, flags, 0, some ops, priv⟩
  let s := { s with origin := Function.update s.origin f (s.mounts i).deviceBdev }
  if ops.readdir then
    match s.ext2.exec Ext2.kmalloc with
    | none => none
    | some (none, d) =>
      some ({ s with ext2 := d }.setFile f
        { o with used := false, refcount := 0, ops := none, priv := 0 })
    | some (some _, d) =>
      some ({ s with
        ext2 := d
        handles := Function.update s.handles s.nextHandle ⟨0, i, rel.take 254, s.mountNo i⟩
        nextHandle := s.nextHandle + 1 }.setFile f { o with priv := s.nextHandle })
  else some (s.setFile f o)

/-- The loop of `vfs_open` over the matching mounts, and once more over the first of them
with `O_CREAT`. -/
def openLoop (f : FileId) (abs : List UInt8) (flags : Int) : List Slot → Handles → Option Handles
  | [], s => some (s.setFile f ⟨false, 0, flags, 0, none, 0⟩)
  | i :: rest, s =>
    let rel := stripMount abs (s.mounts i).path
    match s.openOn i rel flags with
    | none => none
    | some (some (ops, priv), s) => s.finish f i rel flags ops priv
    | some (none, s) => openLoop f abs flags rest s

/-- `vfs_open` -/
def openPath (path : List UInt8) (flags : Int) (s : Handles) : Option Handles :=
  let abs := E.vfs.abs path
  match s.mounts.findMounts abs 4 with
  | [] => some s
  | i :: rest =>
    match fileAlloc s.ram.files with
    | none => some s
    | some (f, _) => openLoop f abs flags (i :: rest ++ if oCreat flags then [i] else []) s

/-- The slot of the handle still holds the mount that the handle was opened on. -/
def Holds (s : Handles) (h : DirHandle) : Prop :=
  (s.mounts h.slot).used = true ∧ s.mountNo h.slot = h.mountNo

instance (s : Handles) (h : DirHandle) : Decidable (Holds s h) :=
  inferInstanceAs (Decidable (_ ∧ _))

def record (e : HandleEvent) (s : Handles) : Handles := { s with events := s.events ++ [e] }

/-- Whether a directory of the ramfs has an entry at this position. -/
def ramfsHasEntry (t : Ramfs) (path : List UInt8) (index : Nat) : Bool :=
  match t.resolvePath path with
  | .error _ => false
  | .ok idx =>
    (t idx).used && (t idx).type == .dir &&
      match (t idx).entries[index]? with
      | none => false
      | some child => (t child).used

/-- `vfs_dir_readdir` on the handle at `ptr`. A call through a slot without operations is
recorded and goes no further. -/
def readdir (ptr : Nat) (s : Handles) : Option Handles :=
  let h := s.handles ptr
  let s' := s.record (.readdir (decide (Holds s h)))
  let advance (found : Bool) (s : Handles) : Handles :=
    if found then
      { s with handles := Function.update s.handles ptr { h with position := h.position + 1 } }
    else s
  match (s.mounts h.slot).ops with
  | none => some s'
  | some .ramfs => some (advance (ramfsHasEntry s.ram.inodes h.relPath h.position) s')
  | some .ext2 =>
    match s.ext2.callback (s.mounts h.slot).fsPrivate (Ext2.fsReaddir h.relPath h.position) with
    | none => none
    | some (entry, d) =>
      some (advance (match entry with | some (some _) => true | _ => false) { s' with ext2 := d })

/-- The object after a transfer, and the record of it. -/
def transferred (f : FileId) (offset : Nat) (d : Ext2.Driver) (s : Handles) : Handles :=
  ({ s with ext2 := d }.setFile f { s.ram.files f with offset := offset }).record
    (.transfer (s.origin f) (d.log.drop s.ext2.log.length))

/-- `sizeof(struct dirent)` -/
def direntSize : Nat := 264

/-- `file_read`; a device of the ramfs answers with `answer`. -/
def read (f : FileId) (count : Nat) (answer : Int) (s : Handles) : Option Handles :=
  let o := s.ram.files f
  if o.used = false then some s
  else
    match o.ops with
    | none => some s
    | some .ramfsDir | some .ext2Dir =>
      if count < direntSize ∨ o.priv = 0 then some s else s.readdir o.priv
    | some .ext2File =>
      match s.ext2.exec (Ext2.fileRead o.priv o.offset count Ext2.Bytes.zero) with
      | none => none
      | some ((_, offset, _), d) => some (s.transferred f offset d)
    | some .ramfsFile | some .ramfsDev =>
      (ramfsFileStep s.ram (.read f count answer)).map fun ram => { s with ram := ram }

/-- `file_write` -/
def write (f : FileId) (bytes : List UInt8) (s : Handles) : Option Handles :=
  let o := s.ram.files f
  if o.used = false then some s
  else
    match o.ops with
    | none | some .ramfsDir | some .ext2Dir => some s
    | some .ext2File =>
      match s.ext2.exec (Ext2.fileWrite o.priv o.flags.toNat o.offset (fun i => bytes.getD i 0)
        bytes.length) with
      | none => none
      | some ((_, offset), d) => some (s.transferred f offset d)
    | some .ramfsFile | some .ramfsDev =>
      (ramfsFileStep s.ram (.write f bytes)).map fun ram => { s with ram := ram }

/-- `file_put` -/
def put (f : FileId) (s : Handles) : Handles :=
  { s with ram := { s.ram with files := (filePut f s.ram.files).2 } }

end Handles

inductive HandleOp where
  | mount (device path : List UInt8)
  | umount (path : List UInt8)
  | open (path : List UInt8) (flags : Int)
  | read (f : FileId) (count : Nat) (answer : Int)
  | write (f : FileId) (bytes : List UInt8)
  | put (f : FileId)

def handleStep (E : HandleEnv) (s : Handles) : HandleOp → Option Handles
  | .mount device path => s.mount E device path
  | .umount path => s.umount E path
  | .open path flags => s.openPath E path flags
  | .read f count answer => s.read f count answer
  | .write f bytes => s.write f bytes
  | .put f => some (s.put f)

namespace Handles

variable {E : HandleEnv} {s s' : Handles} {f : FileId} {op : HandleOp} {path rel : List UInt8}
  {flags : Int}

/-- Every call through a handle went where it should. -/
def Clean (s : Handles) : Prop := ∀ e ∈ s.events, e.Ok

/-! ## What stays in place -/

/-- An object is open, with these operations. -/
def Opens (s : Handles) (f : FileId) (ops : FileOps) : Prop :=
  (s.ram.files f).used = true ∧ (s.ram.files f).ops = some ops

/-- A directory is open through its handle in this slot. -/
def DirIn (s : Handles) (i : Slot) (f : FileId) : Prop :=
  (s.ram.files f).used = true ∧ (s.ram.files f).ops.any FileOps.readdir = true ∧
    (s.ram.files f).priv ≠ 0 ∧ (s.handles (s.ram.files f).priv).slot = i

/-- A mount goes only when none of its directories is open; and while a file of a volume is open, no
volume is mounted but from the device of the file. -/
def Idle (E : HandleEnv) (s : Handles) : HandleOp → Prop
  | .umount path => ∀ i ∈ s.mounts.slotAt (E.vfs.abs path), ∀ f, ¬s.DirIn i f
  | .mount device _ => s.ext2.vars.mounted = false →
    ∀ bd ∈ E.blockDeviceFind (deviceName device), ∀ f, s.Opens f .ext2File → s.origin f = some bd
  | .open _ _ | .read _ _ _ | .write _ _ | .put _ => True

instance (s : Handles) (f : FileId) (ops : FileOps) : Decidable (s.Opens f ops) :=
  inferInstanceAs (Decidable (_ ∧ _))

instance (s : Handles) (i : Slot) (f : FileId) : Decidable (s.DirIn i f) :=
  inferInstanceAs (Decidable (_ ∧ _))

instance (E : HandleEnv) (s : Handles) : (op : HandleOp) → Decidable (Idle E s op)
  | .umount path =>
    inferInstanceAs (Decidable (∀ i ∈ s.mounts.slotAt (E.vfs.abs path), ∀ f, ¬s.DirIn i f))
  | .mount device _ =>
    inferInstanceAs (Decidable (s.ext2.vars.mounted = false →
      ∀ bd ∈ E.blockDeviceFind (deviceName device), ∀ f, s.Opens f .ext2File →
        s.origin f = some bd))
  | .open _ _ | .read _ _ _ | .write _ _ | .put _ => isTrue trivial

/-- The volume of a slot: its saved variables and those of the driver name its device. -/
structure InSlot (m : Mount) (d : Ext2.Driver) : Prop where
  saved : ∃ vars, d.ctxs m.fsPrivate = some vars ∧ vars.mounted = true ∧ vars.curBd = m.deviceBdev
  mounted : d.vars.mounted = true
  device : d.vars.curBd = m.deviceBdev

/-- Slots with operations are used, and one of them at most has a volume. -/
structure Volumes (mounts : MountTable) (d : Ext2.Driver) : Prop where
  used : ∀ i, (mounts i).ops ≠ none → (mounts i).used = true
  volume : ∀ i, (mounts i).ops = some .ext2 → InSlot (mounts i) d
  one : ∀ i j, (mounts i).ops = some .ext2 → (mounts j).ops = some .ext2 → i = j

/-- What an open object refers to is in place. -/
structure Refers (s : Handles) (f : FileId) (ops : FileOps) : Prop where
  dir : ops.readdir = true → (s.ram.files f).priv ≠ 0 →
    (s.ram.files f).priv < s.nextHandle ∧ Holds s (s.handles (s.ram.files f).priv)
  file : ops = .ext2File → ∀ bd ∈ s.ext2.vars.curBd, s.origin f = some bd

/-- What holds while no mount goes that is in use. -/
structure Kept (s : Handles) : Prop where
  volumes : Volumes s.mounts s.ext2
  refers : ∀ f ops, s.Opens f ops → Refers s f ops
  clean : Clean s

theorem InSlot.congr {m : Mount} {d d' : Ext2.Driver} (h : InSlot m d)
    (hd : d'.volume = d.volume) : InSlot m d' := by
  obtain ⟨hmounted, hvars⟩ := Prod.mk.inj hd
  obtain ⟨hbd, hctxs⟩ := Prod.mk.inj hvars
  exact ⟨hctxs ▸ h.saved, hmounted.trans h.mounted, hbd.trans h.device⟩

theorem Volumes.congr {mounts : MountTable} {d d' : Ext2.Driver} (h : Volumes mounts d)
    (hd : d'.volume = d.volume) : Volumes mounts d' :=
  ⟨h.used, fun i hi => (h.volume i hi).congr hd, h.one⟩

/-- Without a volume in the driver no slot has one. -/
theorem Volumes.none {mounts : MountTable} {d : Ext2.Driver} (h : Volumes mounts d)
    (hm : d.vars.mounted = false) (i : Slot) : (mounts i).ops ≠ some .ext2 := fun hi =>
  absurd (hm.symm.trans (h.volume i hi).mounted) Bool.false_ne_true

/-- The mounts are the same, what is open was open before, and calls through handles went where they
should. -/
structure Within (s s' : Handles) : Prop where
  mounts : s'.mounts = s.mounts
  mountNo : s'.mountNo = s.mountNo
  volume : s'.ext2.volume = s.ext2.volume
  next : s'.nextHandle = s.nextHandle
  handles : ∀ p, (s'.handles p).slot = (s.handles p).slot ∧
    (s'.handles p).mountNo = (s.handles p).mountNo
  origin : s'.origin = s.origin
  opens : ∀ f ops, s'.Opens f ops → s.Opens f ops ∧ (s'.ram.files f).priv = (s.ram.files f).priv
  clean : Clean s → Clean s'

theorem Kept.within (h : Kept s) (hw : Within s s') : Kept s' := by
  refine ⟨hw.mounts ▸ h.volumes.congr hw.volume, fun f ops hopen => ?_, hw.clean h.clean⟩
  obtain ⟨hopen, hpriv⟩ := hw.opens f ops hopen
  obtain ⟨hdir, hfile⟩ := h.refers f ops hopen
  refine ⟨fun hr hnull => ?_, fun hops => ?_⟩
  · rw [hpriv] at hnull ⊢
    obtain ⟨hfresh, hused, hno⟩ := hdir hr hnull
    obtain ⟨hslot, hno'⟩ := hw.handles (s.ram.files f).priv
    rw [hw.next]
    exact ⟨hfresh, by rw [hw.mounts, hslot]; exact hused,
      by rw [hw.mountNo, hslot, hno']; exact hno⟩
  · rw [hw.origin, (Prod.mk.inj (Prod.mk.inj hw.volume).2).1]
    exact hfile hops

/-! ## The calls keep it -/

/-- One object has changed, but for its operations and its private word, or was closed. -/
def OneObject (pool pool' : FilePool) : Prop :=
  ∃ f o, pool' = Function.update pool f o ∧
    (o.used = true → (pool f).used = true ∧ o.ops = (pool f).ops ∧ o.priv = (pool f).priv)

theorem OneObject.refl (pool : FilePool) : OneObject pool pool :=
  ⟨firstFile, pool firstFile, (Function.update_eq_self ..).symm, fun h => ⟨h, rfl, rfl⟩⟩

theorem Within.object {d : Ext2.Driver} {ram : RamfsState} {events : List HandleEvent}
    (hd : d.volume = s.ext2.volume) (hram : OneObject s.ram.files ram.files)
    (hclean : Clean s → ∀ e ∈ events, e.Ok) :
    Within s { s with ext2 := d, ram := ram, events := events } := by
  refine ⟨rfl, rfl, hd, rfl, fun _ => ⟨rfl, rfl⟩, rfl, fun g ops hg => ?_, hclean⟩
  obtain ⟨f, o, hfiles, ho⟩ := hram
  unfold Opens at hg ⊢
  dsimp only at hg ⊢
  rw [hfiles] at hg ⊢
  by_cases hgf : g = f
  · subst hgf
    rw [Function.update_self] at hg ⊢
    obtain ⟨hused, hops, hpriv⟩ := ho hg.1
    exact ⟨⟨hused, hops.symm.trans hg.2⟩, hpriv⟩
  · rw [Function.update_of_ne hgf] at hg ⊢
    exact ⟨hg, rfl⟩

theorem Within.driver {d : Ext2.Driver} {ram : RamfsState} (hd : d.volume = s.ext2.volume)
    (hram : ram.files = s.ram.files) : Within s { s with ext2 := d, ram := ram } :=
  .object hd (hram ▸ .refl _) id

theorem Within.refl (s : Handles) : Within s s := .driver rfl rfl

/-- A callback restores the variables of the volume, which are those of the driver. -/
theorem Kept.callback {α : Type} {m : Ext2.M α} {a : α} {d : Ext2.Driver} {i : Slot} (h : Kept s)
    (hi : (s.mounts i).ops = some .ext2)
    (hcall : s.ext2.callback (s.mounts i).fsPrivate m = some (a, d)) :
    d.volume = s.ext2.volume := by
  obtain ⟨⟨vars, hctx, hm, hbd⟩, hm', hbd'⟩ := h.volumes.volume i hi
  unfold Ext2.Driver.callback Ext2.Driver.restore at hcall
  rw [hctx] at hcall
  rw [Ext2.Driver.exec_volume hcall]
  unfold Ext2.Driver.volume
  rw [hm, hbd, hm', hbd']

/-- The calls through a descriptor. -/
def Transfers : RamfsFileOp → Prop
  | .read _ _ _ | .write _ _ => True
  | _ => False

theorem ramfsFileStep_object {ram ram' : RamfsState} {op : RamfsFileOp} (hop : Transfers op)
    (h : ramfsFileStep ram op = some ram') : OneObject ram.files ram'.files := by
  cases op with
  | read f count answer =>
    unfold ramfsFileStep ramfsFileRead ramfsDevRead at h
    dsimp only at h
    split_ifs at h <;> cases h <;>
      first
        | exact .refl _
        | exact ⟨f, _, rfl, fun hused => ⟨hused, rfl, rfl⟩⟩
  | write f bytes =>
    unfold ramfsFileStep at h
    dsimp only at h
    split at h
    · obtain ⟨⟨ret, ram₁⟩, hwrite, rfl⟩ := map_eq_some_iff.mp h
      unfold ramfsFileWrite at hwrite
      dsimp only at hwrite
      split at hwrite
      · cases hwrite
        exact .refl _
      · split at hwrite
        · cases hwrite
        · split at hwrite <;> cases hwrite
          · exact ⟨f, _, rfl, fun hused => ⟨hused, rfl, rfl⟩⟩
          · exact .refl _
    · cases h
      exact .refl _
  | _ => exact hop.elim

theorem Within.ramfs {op : RamfsFileOp}
    (hrun : (ramfsFileStep s.ram op).map (fun ram => { s with ram := ram }) = some s')
    (hop : Transfers op) : Within s s' := by
  obtain ⟨ram, hstep, rfl⟩ := map_eq_some_iff.mp hrun
  exact .object rfl (ramfsFileStep_object hop hstep) id

theorem Kept.readdir {ptr : Nat} (h : Kept s) (hheld : Holds s (s.handles ptr))
    (hrun : s.readdir ptr = some s') : Within s s' := by
  have hclean (hs : Clean s) :
      Clean (s.record (.readdir (decide (Holds s (s.handles ptr))))) :=
    forall_mem_append.mpr ⟨hs, forall_mem_singleton.mpr (decide_eq_true hheld)⟩
  have hadvance {d : Ext2.Driver} (found : Bool) (hd : d.volume = s.ext2.volume) :
      Within s (if found then
        { s.record (.readdir (decide (Holds s (s.handles ptr)))) with
          ext2 := d
          handles := Function.update s.handles ptr
            { s.handles ptr with position := (s.handles ptr).position + 1 } }
      else { s.record (.readdir (decide (Holds s (s.handles ptr)))) with ext2 := d }) := by
    split
    · refine ⟨rfl, rfl, hd, rfl, fun p => ?_, rfl, fun f ops hopen => ⟨hopen, rfl⟩, hclean⟩
      dsimp only
      by_cases hp : p = ptr
      · subst hp
        rw [Function.update_self]
        exact ⟨rfl, rfl⟩
      · rw [Function.update_of_ne hp]
        exact ⟨rfl, rfl⟩
    · exact .object hd (.refl _) hclean
  unfold Handles.readdir at hrun
  dsimp only at hrun
  split at hrun
  · cases hrun
    exact .object rfl (.refl _) hclean
  · cases hrun
    exact hadvance _ rfl
  · rename_i hops
    split at hrun
    · cases hrun
    · rename_i entry d hcall
      rw [← some.inj hrun]
      exact hadvance _ (h.callback hops hcall)

/-- The transfers of file data go to the current device. -/
theorem Kept.transferred {α : Type} {m : Ext2.M α} {a : α} {d : Ext2.Driver} {offset : Nat}
    (h : Kept s) (hopen : s.Opens f .ext2File) (hexec : s.ext2.exec m = some (a, d)) :
    Within s (s.transferred f offset d) := by
  refine .object (Ext2.Driver.exec_volume hexec) ⟨f, _, rfl, fun hused => ⟨hused, rfl, rfl⟩⟩
    fun hclean => forall_mem_append.mpr ⟨hclean, forall_mem_singleton.mpr fun bd hbd => ?_⟩
  exact (h.refers f _ hopen).file rfl bd ((Ext2.Driver.exec_log hexec).2 bd hbd)

theorem Kept.read {count : Nat} {answer : Int} (h : Kept s)
    (hrun : s.read f count answer = some s') : Within s s' := by
  unfold Handles.read at hrun
  dsimp only at hrun
  split at hrun
  · cases hrun
    exact .refl s
  rename_i hused
  have hopen {ops : FileOps} (hops : (s.ram.files f).ops = some ops) : s.Opens f ops :=
    ⟨by simpa using hused, hops⟩
  have hdir {ops : FileOps} (hops : (s.ram.files f).ops = some ops) (hr : ops.readdir = true)
      (hrun : (if count < direntSize ∨ (s.ram.files f).priv = 0 then some s
        else s.readdir (s.ram.files f).priv) = some s') : Within s s' := by
    split at hrun
    · cases hrun
      exact .refl s
    · rename_i hskip
      exact h.readdir ((h.refers f _ (hopen hops)).dir hr fun hnull => hskip (.inr hnull)).2 hrun
  split at hrun
  · cases hrun
    exact .refl s
  · exact hdir ‹_› rfl hrun
  · exact hdir ‹_› rfl hrun
  · split at hrun
    · cases hrun
    · cases hrun
      exact h.transferred (hopen ‹_›) ‹_›
  · exact .ramfs hrun trivial
  · exact .ramfs hrun trivial

theorem Kept.write {bytes : List UInt8} (h : Kept s) (hrun : s.write f bytes = some s') :
    Within s s' := by
  unfold Handles.write at hrun
  dsimp only at hrun
  split at hrun
  · cases hrun
    exact .refl s
  rename_i hused
  split at hrun
  · cases hrun
    exact .refl s
  · cases hrun
    exact .refl s
  · cases hrun
    exact .refl s
  · split at hrun
    · cases hrun
    · cases hrun
      exact h.transferred ⟨by simpa using hused, ‹_›⟩ ‹_›
  · exact .ramfs hrun trivial
  · exact .ramfs hrun trivial

theorem Within.put (s : Handles) (f : FileId) : Within s (s.put f) := by
  unfold Handles.put filePut
  dsimp only
  split
  · exact .object rfl ⟨f, _, rfl, fun hused => absurd hused Bool.false_ne_true⟩ id
  · exact .object rfl ⟨f, _, rfl, fun hused => ⟨hused, rfl, rfl⟩⟩ id

theorem ramfsFsOpen_ops {ram ram' : RamfsState} {ops : FileOps} {idx : InodeId}
    (h : ramfsFsOpen ram rel flags = (some (ops, idx), ram')) : ops ≠ .ext2File := by
  have hinode {r : RamfsState} {i : InodeId}
      (h : openInode r i flags = (some (ops, idx), ram')) : ops ≠ .ext2File := by
    unfold openInode at h
    split at h
    · cases h
      cases (r.inodes idx).type <;> exact FileOps.noConfusion
    · cases h
  unfold ramfsFsOpen at h
  split at h
  · exact hinode h
  · split at h
    · split at h
      · cases h
      · split at h
        · cases h
        · exact hinode h
    · cases h

/-- An open of a file on a volume goes through the slot of the volume. -/
theorem Kept.openOn {i : Slot} {r : Option (FileOps × Nat)} (h : Kept s)
    (hrun : s.openOn i rel flags = some (r, s')) :
    Within s s' ∧ (s.mounts i).used = true ∧
      ∀ p ∈ r, p.1 = .ext2File → (s.mounts i).ops = some .ext2 := by
  unfold Handles.openOn at hrun
  split at hrun
  · cases hrun
  · rename_i hops
    have hused := h.volumes.used i (by simp [hops])
    split at hrun
    · rename_i ram hopen
      cases hrun
      have hfiles := (ramfsFsOpen_spec hopen).1.files
      exact ⟨.driver rfl hfiles, hused, fun p hp => absurd hp (by simp)⟩
    · rename_i ops idx ram hopen
      cases hrun
      have hfiles := (ramfsFsOpen_spec hopen).1.files
      refine ⟨.driver rfl hfiles, hused, fun p hp hops => ?_⟩
      cases hp
      exact absurd hops (ramfsFsOpen_ops hopen)
  · rename_i hops
    have hused := h.volumes.used i (by simp [hops])
    split at hrun
    · cases hrun
    · rename_i hcall
      cases hrun
      exact ⟨.driver (h.callback hops hcall) rfl, hused, fun _ _ _ => hops⟩
    · rename_i hcall
      cases hrun
      exact ⟨.driver (h.callback hops hcall) rfl, hused, fun _ _ _ => hops⟩

/-- One object is opened, with a handle of its own. -/
theorem Kept.opened {d : Ext2.Driver} {o : File} {origin : Option Nat} {handles : Nat → DirHandle}
    {next : Nat} (h : Kept s) (hd : d.volume = s.ext2.volume)
    (hhandles : ∀ p < s.nextHandle, handles p = s.handles p) (hnext : s.nextHandle ≤ next)
    (hnew : ∀ ops, o.used = true → o.ops = some ops →
      (ops.readdir = true → o.priv < next ∧ Holds s (handles o.priv)) ∧
      (ops = .ext2File → s.ext2.vars.curBd = origin)) :
    Kept ({ s with
      ext2 := d
      origin := Function.update s.origin f origin
      handles := handles
      nextHandle := next }.setFile f o) := by
  have hbd : d.vars.curBd = s.ext2.vars.curBd := (Prod.mk.inj (Prod.mk.inj hd).2).1
  refine ⟨h.volumes.congr hd, fun g ops hopen => ?_, h.clean⟩
  simp only [Opens, setFile, RamfsState.setFile] at hopen
  by_cases hg : g = f
  · subst hg
    rw [Function.update_self] at hopen
    obtain ⟨hdir, hfile⟩ := hnew ops hopen.1 hopen.2
    refine ⟨fun hr _ => ?_, fun hops => ?_⟩ <;>
      simp only [setFile, RamfsState.setFile, Function.update_self]
    · exact hdir hr
    · rw [hbd, hfile hops]
      exact fun _ hx => hx
  · rw [Function.update_of_ne hg] at hopen
    obtain ⟨hdir, hfile⟩ := h.refers g ops hopen
    refine ⟨fun hr hnull => ?_, fun hops => ?_⟩ <;>
      simp only [setFile, RamfsState.setFile, Function.update_of_ne hg] at *
    · obtain ⟨hfresh, hholds⟩ := hdir hr hnull
      rw [hhandles _ hfresh]
      exact ⟨Nat.lt_of_lt_of_le hfresh hnext, hholds⟩
    · rw [hbd]
      exact hfile hops

/-- A new object refers to the mount in the slot. -/
theorem Kept.finish {i : Slot} {ops : FileOps} {priv : Nat} (h : Kept s)
    (hi : (s.mounts i).used = true) (hops : ops = .ext2File → (s.mounts i).ops = some .ext2)
    (hrun : s.finish f i rel flags ops priv = some s') : Kept s' := by
  unfold Handles.finish at hrun
  dsimp only at hrun
  split at hrun
  · rename_i hdir
    split at hrun
    · cases hrun
    · rename_i hmem
      cases hrun
      exact h.opened (Ext2.Driver.exec_volume hmem) (fun _ _ => rfl) le_rfl
        fun _ hused => absurd hused Bool.false_ne_true
    · rename_i hmem
      cases hrun
      refine h.opened (Ext2.Driver.exec_volume hmem)
        (fun p hp => Function.update_of_ne (Nat.ne_of_lt hp) ..) (Nat.le_succ _) ?_
      intro ops' _ hops'
      cases hops'
      refine ⟨fun _ => ⟨Nat.lt_succ_self _, ?_⟩, fun hfile => ?_⟩
      · dsimp only
        rw [Function.update_self]
        exact ⟨hi, rfl⟩
      · rw [hfile] at hdir
        cases hdir
  · rename_i hdir
    cases hrun
    refine h.opened rfl (fun _ _ => rfl) le_rfl ?_
    intro ops' _ hops'
    cases hops'
    exact ⟨fun hd => absurd hd hdir, fun hfile => (h.volumes.volume i (hops hfile)).device⟩

theorem Kept.openLoop {abs : List UInt8} {slots : List Slot} (h : Kept s)
    (hrun : openLoop f abs flags slots s = some s') : Kept s' := by
  induction slots generalizing s with
  | nil =>
    cases hrun
    exact h.within (.object rfl ⟨f, _, rfl, fun hused => absurd hused Bool.false_ne_true⟩ id)
  | cons i rest ih =>
    rw [Handles.openLoop] at hrun
    split at hrun
    · cases hrun
    · rename_i ops priv s₁ hopen
      obtain ⟨hw, hused, hops⟩ := h.openOn hopen
      have hmounts := hw.mounts
      refine (h.within hw).finish (by rw [hmounts]; exact hused) ?_ hrun
      rw [hmounts]
      exact hops _ rfl
    · rename_i s₁ hopen
      exact ih (h.within (h.openOn hopen).1) hrun

theorem Kept.openPath (h : Kept s) (hrun : s.openPath E path flags = some s') : Kept s' := by
  unfold Handles.openPath at hrun
  dsimp only at hrun
  split at hrun
  · cases hrun
    exact h
  · split at hrun
    · cases hrun
      exact h
    · exact h.openLoop hrun

section Mounts

variable {mounts mounts' : MountTable} {d d' : Ext2.Driver} {abs device : List UInt8} {bd : Nat}

theorem Volumes.of_none (h : Volumes mounts d) (hm : d.vars.mounted = false) (d' : Ext2.Driver) :
    Volumes mounts d' := ⟨h.used, fun i hi => absurd hi (h.none hm i), h.one⟩

/-- A volume is put in a slot when there is no other. -/
theorem Volumes.put {j : Slot} {ctx : Nat} (h : Volumes mounts d) (hm : d.vars.mounted = false)
    (hctx : d'.ctxs ctx = some d'.vars) (hm' : d'.vars.mounted = true)
    (hbd : d'.vars.curBd = some bd) : Volumes (mounts.put j abs device .ext2 ctx bd) d' := by
  have hother {i : Slot} (hi : i ≠ j) : mounts.put j abs device .ext2 ctx bd i = mounts i :=
    Function.update_of_ne hi ..
  have hhere : mounts.put j abs device .ext2 ctx bd j = _ := Function.update_self ..
  have honly {i : Slot} (hi : (mounts.put j abs device .ext2 ctx bd i).ops = some .ext2) :
      i = j := by
    by_contra hne
    rw [hother hne] at hi
    exact h.none hm i hi
  refine ⟨fun i hi => ?_, fun i hi => ?_, fun i k hi hk => (honly hi).trans (honly hk).symm⟩
  · by_cases hij : i = j
    · rw [hij, hhere]
    · rw [hother hij] at hi ⊢
      exact h.used i hi
  · rw [honly hi, hhere]
    exact ⟨⟨d'.vars, hctx, hm', hbd⟩, hm', hbd⟩

/-- The device that may be mounted now. -/
def Mounts (bd : Nat) (d d' : Ext2.Driver) : Prop :=
  d' = d ∨ d.vars.mounted = false ∧ ∀ x ∈ d'.vars.curBd, x = bd

/-- A file system is mounted in a free slot, and a volume only when there is no other. -/
theorem tryFilesystems_spec {l : List FsType} {o : Option Ext2.Driver} {ret : Int}
    (h : tryFilesystems E.vfs abs device bd l ⟨mounts, o⟩ = (ret, ⟨mounts', some d'⟩)) :
    ∃ d, o = some d ∧ (Volumes mounts d → Volumes mounts' d') ∧
      (∀ i, (mounts i).used = true → mounts' i = mounts i) ∧ Mounts bd d d' := by
  induction l generalizing o with
  | nil =>
    cases h
    exact ⟨d', rfl, id, fun _ _ => rfl, .inl rfl⟩
  | cons fs rest ih =>
    rw [tryFilesystems] at h
    split at h
    · exact ih h
    cases fs with
    | ramfs => contradiction
    | ext2 =>
      have hmount : E.vfs.drivers.mount .ext2 bd o =
        match o.bind (Ext2.Driver.fsMount bd) with
        | none => (none, none)
        | some (ctx, d) => (ctx, some d) := rfl
      dsimp only at h
      rw [hmount] at h
      cases hfs : o.bind (Ext2.Driver.fsMount bd) with
      | none =>
        simp only [hfs] at h
        obtain ⟨d, hd, -⟩ := ih h
        cases hd
      | some r =>
        obtain ⟨ctx, d₁⟩ := r
        simp only [hfs] at h
        obtain ⟨d, rfl, hfs⟩ := bind_eq_some_iff.mp hfs
        refine ⟨d, rfl, ?_⟩
        rcases Ext2.Driver.fsMount_volume hfs with ⟨hm, rfl, rfl⟩ | ⟨hm, ⟨rfl, -, hbd⟩ | hok⟩
        · obtain ⟨_, hd, hrest⟩ := ih h
          cases hd
          exact hrest
        · obtain ⟨_, hd, hvolumes, hsame, hd'⟩ := ih h
          cases hd
          refine ⟨fun hv => hvolumes (hv.of_none hm _), hsame, .inr ⟨hm, ?_⟩⟩
          rcases hd' with rfl | ⟨-, hbd⟩
          · rw [hbd]
            exact fun _ hx => absurd hx (not_mem_none _)
          · exact hbd
        · obtain ⟨ctx, rfl, hctx, hm', hbd⟩ := hok
          have hdev (x : Nat) (hx : x ∈ d₁.vars.curBd) : x = bd :=
            (some.inj (hbd.symm.trans hx)).symm
          dsimp only at h
          split at h
          · cases h
            exact ⟨fun hv => hv.of_none hm _, fun _ _ => rfl, .inr ⟨hm, hdev⟩⟩
          · rename_i j hj
            cases h
            refine ⟨fun hv => hv.put hm hctx hm' hbd, fun i hi => ?_, .inr ⟨hm, hdev⟩⟩
            have hfree : (mounts j).used = false := by simpa using find?_some hj
            exact Function.update_of_ne (by rintro rfl; rw [hi] at hfree; cases hfree) ..

end Mounts

/-- What a mount leaves as it is: the slots in use and their numbers, and every object. -/
theorem mount_spec {device : List UInt8} (h : s.mount E device path = some s') :
    ∃ mounts mountNo mountsSoFar d, s' = { s with
        mounts := mounts, mountNo := mountNo, mountsSoFar := mountsSoFar, ext2 := d } ∧
      (Volumes s.mounts s.ext2 → Volumes mounts d) ∧
      (∀ i, (s.mounts i).used = true → mounts i = s.mounts i ∧ mountNo i = s.mountNo i) ∧
      (d = s.ext2 ∨ ∃ bd ∈ E.blockDeviceFind (deviceName device), Mounts bd s.ext2 d) := by
  unfold Handles.mount at h
  split at h
  · cases h
  rename_i free ret mounts d hmount
  have hspec : (Volumes s.mounts s.ext2 → Volumes mounts d) ∧
      (∀ i, (s.mounts i).used = true → mounts i = s.mounts i) ∧
      (d = s.ext2 ∨ ∃ bd ∈ E.blockDeviceFind (deviceName device), Mounts bd s.ext2 d) := by
    unfold vfsMount at hmount
    split at hmount
    · cases hmount
      exact ⟨id, fun _ _ => rfl, .inl rfl⟩
    split at hmount
    · cases hmount
      exact ⟨id, fun _ _ => rfl, .inl rfl⟩
    rename_i bd hbd
    obtain ⟨_, hs, hvolumes, hsame, hd⟩ := tryFilesystems_spec hmount
    cases hs
    exact ⟨hvolumes, hsame, .inr ⟨bd, hbd, hd⟩⟩
  obtain ⟨hvolumes, hsame, hd⟩ := hspec
  dsimp only at h
  split at h
  · rename_i j hj
    have hfree : (s.mounts j).used = false := by simpa using find?_some hj
    split at h
    · refine ⟨_, _, _, d, (some.inj h).symm, hvolumes, fun i hi => ⟨hsame i hi, ?_⟩, hd⟩
      exact Function.update_of_ne (by rintro rfl; rw [hi] at hfree; cases hfree) ..
    · exact ⟨_, _, _, d, (some.inj h).symm, hvolumes, fun i hi => ⟨hsame i hi, rfl⟩, hd⟩
  · exact ⟨_, _, _, d, (some.inj h).symm, hvolumes, fun i hi => ⟨hsame i hi, rfl⟩, hd⟩

theorem Kept.mount {device : List UInt8} (h : Kept s) (hidle : Idle E s (.mount device path))
    (hrun : s.mount E device path = some s') : Kept s' := by
  obtain ⟨mounts, mountNo, _, d, rfl, hvolumes, hsame, hd⟩ := mount_spec hrun
  refine ⟨hvolumes h.volumes, fun f ops hopen => ?_, h.clean⟩
  obtain ⟨hdir, hfile⟩ := h.refers f ops hopen
  refine ⟨fun hr hnull => ?_, fun hops x hx => ?_⟩
  · obtain ⟨hfresh, hused, hno⟩ := hdir hr hnull
    obtain ⟨hmounts, hmountNo⟩ := hsame _ hused
    exact ⟨hfresh, (congrArg Mount.used hmounts).trans hused, hmountNo.trans hno⟩
  · rcases hd with rfl | ⟨bd, hbd, rfl | ⟨hm', hcur⟩⟩
    · exact hfile hops x hx
    · exact hfile hops x hx
    · rw [hcur x hx]
      exact hidle hm' bd hbd f (hops ▸ hopen)

/-- An unmount clears the first slot with the path. -/
theorem umount_spec (h : s.umount E path = some s') :
    s.mounts.slotAt (E.vfs.abs path) = none ∧ s' = s ∨
    ∃ i ∈ s.mounts.slotAt (E.vfs.abs path), ∃ d,
      s' = { s with mounts := s.mounts.clear i, ext2 := d } ∧
      ((s.mounts i).ops ≠ some .ext2 ∧ d = s.ext2 ∨ (s.mounts i).ops = some .ext2 ∧
        s.ext2.fsUnmount (s.mounts i).fsPrivate = some d) := by
  unfold Handles.umount vfsUmount at h
  dsimp only at h
  cases hslot : s.mounts.slotAt (E.vfs.abs path) with
  | none =>
    simp only [hslot] at h
    exact .inl ⟨rfl, (some.inj h).symm⟩
  | some i =>
    refine .inr ⟨i, rfl, ?_⟩
    cases hops : (s.mounts i).ops with
    | none =>
      simp only [hslot, hops, Option.bind_none] at h
      exact ⟨s.ext2, (some.inj h).symm, .inl ⟨by decide, rfl⟩⟩
    | some fs =>
      cases fs with
      | ramfs =>
        simp only [hslot, hops] at h
        exact ⟨s.ext2, (some.inj h).symm, .inl ⟨by decide, rfl⟩⟩
      | ext2 =>
        have hcallback : E.vfs.drivers.unmount .ext2 =
            some fun ctx e => e.bind (Ext2.Driver.fsUnmount ctx) := rfl
        simp only [hslot, hops, Option.bind_some, hcallback] at h
        cases hun : s.ext2.fsUnmount (s.mounts i).fsPrivate with
        | none =>
          rw [hun] at h
          cases h
        | some d =>
          rw [hun] at h
          exact ⟨d, (some.inj h).symm, .inr ⟨rfl, rfl⟩⟩

/-- The handles of the other mounts stay. -/
theorem Kept.umount (h : Kept s) (hidle : Idle E s (.umount path))
    (hrun : s.umount E path = some s') : Kept s' := by
  rcases umount_spec hrun with ⟨-, rfl⟩ | ⟨i, hslot, d, rfl, hd⟩
  · exact h
  have hother {k : Slot} (hk : k ≠ i) : s.mounts.clear i k = s.mounts k :=
    Function.update_of_ne hk ..
  have hleft {k : Slot} (hk : (s.mounts.clear i k).ops ≠ none) :
      k ≠ i ∧ s.mounts.clear i k = s.mounts k := by
    have hne : k ≠ i := by
      rintro rfl
      rw [MountTable.clear, Function.update_self] at hk
      exact hk rfl
    exact ⟨hne, hother hne⟩
  have hext2 {k : Slot} (hk : (s.mounts.clear i k).ops = some .ext2) :
      k ≠ i ∧ s.mounts.clear i k = s.mounts k := hleft (by rw [hk]; exact some_ne_none _)
  have hused (k : Slot) (hk : (s.mounts.clear i k).ops ≠ none) :
      (s.mounts.clear i k).used = true := by
    have hsame := (hleft hk).2
    rw [hsame] at hk ⊢
    exact h.volumes.used k hk
  have hvolumes : Volumes (s.mounts.clear i) d ∧ ∀ x ∈ d.vars.curBd, x ∈ s.ext2.vars.curBd := by
    rcases hd with ⟨hops, rfl⟩ | ⟨hops, hunmount⟩
    · refine ⟨⟨hused, fun k hk => ?_, fun k l hk hl => ?_⟩, fun _ hx => hx⟩
      · have hsame := (hext2 hk).2
        rw [hsame] at hk ⊢
        exact h.volumes.volume k hk
      · rw [(hext2 hk).2] at hk
        rw [(hext2 hl).2] at hl
        exact h.volumes.one k l hk hl
    · obtain ⟨⟨vars, hctx, hm, -⟩, -⟩ := h.volumes.volume i hops
      have hd : d.vars.curBd = none := by
        unfold Ext2.Driver.fsUnmount Ext2.Driver.restore at hunmount
        rw [hctx] at hunmount
        rw [← some.inj hunmount]
        simp [Ext2.Driver.umount, hm]
      have hnone (k : Slot) : (s.mounts.clear i k).ops ≠ some .ext2 := by
        intro hk
        obtain ⟨hne, hsame⟩ := hext2 hk
        rw [hsame] at hk
        exact hne (h.volumes.one k i hk hops)
      exact ⟨⟨hused, fun k hk => absurd hk (hnone k), fun k _ hk => absurd hk (hnone k)⟩,
        fun x hx => absurd (hd.symm.trans hx) (some_ne_none x).symm⟩
  refine ⟨hvolumes.1, fun f ops hopen => ?_, h.clean⟩
  obtain ⟨hdir, hfile⟩ := h.refers f ops hopen
  refine ⟨fun hr hnull => ?_, fun hops x hx => hfile hops x (hvolumes.2 x hx)⟩
  obtain ⟨hfresh, hheld, hno⟩ := hdir hr hnull
  have hne : (s.handles (s.ram.files f).priv).slot ≠ i :=
    fun heq => hidle i hslot f ⟨hopen.1, by rw [hopen.2]; exact hr, hnull, heq⟩
  exact ⟨hfresh, (congrArg Mount.used (hother hne)).trans hheld, hno⟩

theorem Kept.step (h : Kept s) (hidle : Idle E s op) (hrun : handleStep E s op = some s') :
    Kept s' := by
  cases op with
  | mount device path => exact h.mount hidle hrun
  | umount path => exact h.umount hidle hrun
  | «open» path flags =>
    have hopen : s.openPath E path flags = some s' := hrun
    exact h.openPath hopen
  | read f count answer =>
    have hread : s.read f count answer = some s' := hrun
    exact h.within (h.read hread)
  | write f bytes =>
    have hwrite : s.write f bytes = some s' := hrun
    exact h.within (h.write hwrite)
  | put f =>
    cases hrun
    exact h.within (.put s f)

/-- The kernel after `vfs_init`: the ramfs at `"/"`, no volume, no open file. The disks, the
inodes of the ramfs and what allocations and transfers come to are arbitrary. -/
def boot (disks : Nat → Ext2.Bytes) (oracle : Nat → Bool) (junk : Ext2.Bytes) (inodes : Ramfs) :
    Handles where
  mounts := vfsInit
  mountNo _ := 0
  mountsSoFar := 1
  ext2 :=
    { vars := ⟨false, none, 0, 0, 0, 0, 0, 0, Ext2.Bytes.zero, 0⟩
      bgdMem := fun _ => Ext2.Bytes.zero
      ctxs := fun _ => none
      next := 1
      disks := disks
      oracle := oracle
      clock := 0
      junk := junk
      log := [] }
  ram := ⟨inodes, fun _ => File.empty, []⟩
  handles _ := ⟨0, rootSlot, [], 0⟩
  nextHandle := 1
  origin _ := none
  events := []

theorem boot_kept (disks : Nat → Ext2.Bytes) (oracle : Nat → Bool) (junk : Ext2.Bytes)
    (inodes : Ramfs) : Kept (boot disks oracle junk inodes) := by
  have hmounts : ∀ i, (vfsInit i).ops ≠ some .ext2 ∧
      ((vfsInit i).ops ≠ none → (vfsInit i).used = true) := by decide
  exact ⟨⟨fun i => (hmounts i).2, fun i hi => absurd hi (hmounts i).1,
    fun i _ hi => absurd hi (hmounts i).1⟩, fun f ops hopen => absurd hopen.1 Bool.false_ne_true,
    forall_mem_nil _⟩

/-- A directory is read through a slot that was cleared. -/
theorem readdir_cleared {ops : FileOps} {count : Nat} {answer : Int}
    (hopen : s.Opens f ops) (hdir : ops.readdir = true) (hnull : (s.ram.files f).priv ≠ 0)
    (hused : (s.mounts (s.handles (s.ram.files f).priv).slot).used = false)
    (hops : (s.mounts (s.handles (s.ram.files f).priv).slot).ops = none) (hcount : direntSize ≤ count) :
    ∃ s', s.read f count answer = some s' ∧ ¬Clean s' := by
  have hskip : ¬(count < direntSize ∨ (s.ram.files f).priv = 0) := by
    rintro (hlt | hzero)
    · omega
    · exact hnull hzero
  have hread : s.read f count answer = s.readdir (s.ram.files f).priv := by
    unfold Handles.read
    dsimp only
    rw [if_neg (by simp [hopen.1]), hopen.2]
    cases ops with
    | ramfsDir => exact if_neg hskip
    | ext2Dir => exact if_neg hskip
    | ramfsFile => cases hdir
    | ramfsDev => cases hdir
    | ext2File => cases hdir
  have hcall : s.readdir (s.ram.files f).priv = some
      (s.record (.readdir (decide (Holds s (s.handles (s.ram.files f).priv))))) := by
    unfold Handles.readdir
    dsimp only
    rw [hops]
  refine ⟨_, hread.trans hcall, fun hclean => ?_⟩
  have hholds := of_decide_eq_true (hclean _ (mem_append_right _ (mem_singleton_self _)))
  exact Bool.false_ne_true (hused.symm.trans hholds.1)

/-- In every run from the boot of the kernel in which a mount goes only when none of its directories
is open, and no other device is mounted while a file of a volume is open, all calls through handles
go to the mount that the handle was opened on. When a mount goes in spite of an open directory, the
next read of the directory goes wrong; and when another device is mounted in spite of an open file,
so does the next read of the file that makes a transfer. -/
theorem handles_survive_unmount (E : HandleEnv) (disks : Nat → Ext2.Bytes) (oracle : Nat → Bool)
    (junk : Ext2.Bytes) (inodes : Ramfs) (ops : List HandleOp) (s : Handles)
    (hrun : run (handleStep E) (boot disks oracle junk inodes) ops = some s) :
    (Along (handleStep E) (Idle E) (boot disks oracle junk inodes) ops → Clean s) ∧
    (∀ path s₁, s.umount E path = some s₁ → ¬Idle E s (.umount path) →
      ∃ f, ∀ count answer, direntSize ≤ count →
        ∃ s₂, s₁.read f count answer = some s₂ ∧ ¬Clean s₂) ∧
    (∀ device path s₁, s.mount E device path = some s₁ → ¬Idle E s (.mount device path) →
      s₁.ext2.vars.mounted = true → ∃ f, s₁.Opens f .ext2File ∧
        ∀ count answer s₂, s₁.read f count answer = some s₂ → s₂.ext2.log ≠ s₁.ext2.log →
          ¬Clean s₂) := by
  refine ⟨fun hidle => ?_, fun path s₁ humount hbusy => ?_,
    fun device path s₁ hmount hbusy hm => ?_⟩
  · exact (run_invariant_along (handleStep E) (fun _ _ _ h hcond hstep => h.step hcond hstep)
      (boot_kept ..) hidle hrun).clean
  · -- the slot of the directory is cleared, so its handle does not hold
    simp only [Idle, not_forall, not_not] at hbusy
    obtain ⟨i, hslot, f, hused, hops, hnull, hi⟩ := hbusy
    obtain ⟨ops, hops, hdir⟩ := (Option.any_eq_true ..).mp hops
    rcases umount_spec humount with ⟨hnone, -⟩ | ⟨k, hslot', d, rfl, -⟩
    · rw [hnone] at hslot
      cases hslot
    obtain rfl : i = k := some.inj (hslot.symm.trans hslot')
    subst hi
    have hclear {i : Slot} : s.mounts.clear i i = _ := Function.update_self ..
    exact ⟨f, fun count answer => readdir_cleared ⟨hused, hops⟩ hdir hnull
      (congrArg Mount.used hclear)
      (congrArg Mount.ops hclear)⟩
  · simp only [Idle, not_forall] at hbusy
    obtain ⟨hfree, bd, hbd, f, hopen, horigin⟩ := hbusy
    obtain ⟨_, _, _, d, rfl, -, -, hd⟩ := mount_spec hmount
    have hcur : ∀ x ∈ d.vars.curBd, x = bd := by
      rcases hd with rfl | ⟨bd', hbd', rfl | ⟨-, hcur⟩⟩
      · exact absurd (hfree.symm.trans hm) Bool.false_ne_true
      · exact absurd (hfree.symm.trans hm) Bool.false_ne_true
      · cases hbd.symm.trans hbd'
        exact hcur
    refine ⟨f, hopen, fun count answer s₂ hread hlog hclean => horigin ?_⟩
    unfold Handles.read at hread
    dsimp only at hread
    rw [if_neg (by rw [hopen.1]; decide), hopen.2] at hread
    dsimp only at hread
    split at hread
    · cases hread
    rename_i d' hexec
    cases hread
    obtain ⟨hgrown, hdevices⟩ := Ext2.Driver.exec_log hexec
    have hne : d'.log.drop d.log.length ≠ [] := by
      intro hnil
      rw [hnil, append_nil] at hgrown
      exact hlog hgrown
    obtain ⟨x, hx⟩ := exists_mem_of_ne_nil _ hne
    have hok := hclean _ (mem_append_right _ (mem_singleton_self _)) x hx
    rwa [hcur x (hdevices x hx)] at hok

/-- One block device, and both file systems. -/
def oneDisk : HandleEnv where
  registeredFs := [.ramfs, .ext2]
  blockDeviceFind name := if name = [104, 100, 97] then some 0 else none
  cwd := none

/-- A kernel with enough memory, an empty ramfs and an empty disk. -/
def quietBoot : Handles := boot (fun _ => Ext2.Bytes.zero) (fun _ => true) Ext2.Bytes.zero ramfsInit

/-- The bytes of a volume of 64 blocks that are not zero: the superblock, the group
descriptor, the two bitmaps, the root inode and the root directory. -/
def smallVolume : List (Nat × UInt8) :=
  [(1028, 64), (1036, 57), (1040, 6), (1044, 1), (1057, 32), (1064, 16), (1080, 0x53),
    (1081, 0xEF),
    (2048, 3), (2052, 4), (2056, 5), (2060, 57), (2062, 6),
    (3072, 0x7F), (4096, 0xFF), (4097, 0x03),
    (5248, 0xED), (5249, 0x41), (5253, 4), (5274, 2), (5276, 2), (5288, 7),
    (7168, 2), (7172, 12), (7174, 1), (7175, 2), (7176, 46),
    (7180, 2), (7184, 0xF4), (7185, 3), (7186, 2), (7187, 2), (7188, 46), (7189, 46)]

/-- A kernel with the small volume on the disk. -/
def volumeBoot : Handles :=
  boot (fun _ i => (smallVolume.lookup i).getD 0) (fun _ => true) Ext2.Bytes.zero ramfsInit

/-- The volume is mounted at `"/m"`, its root directory and a new file are opened, the file is
written and the directory read. The directory is closed, the volume is unmounted and mounted again, and the
file, which is still open, is written once more. -/
def remount : List HandleOp :=
  [.mount [104, 100, 97] [47, 109], .open [47, 109] 0, .open [47, 109, 47, 97] 4,
    .write secondFile [7], .read firstFile 264 0, .put firstFile, .umount [47, 109],
    .mount [104, 100, 97] [47, 109], .write secondFile [8]]

theorem handles_survive_unmount_remount :
    ∃ s, run (handleStep oneDisk) volumeBoot remount = some s ∧ Clean s ∧ s.events =
      [.transfer (some 0) (replicate 10 0), .readdir true, .transfer (some 0) (replicate 5 0)] := by
  have hevents : (run (handleStep oneDisk) volumeBoot remount).map (·.events) = some
      [.transfer (some 0) (replicate 10 0), .readdir true, .transfer (some 0) (replicate 5 0)] := by
    decide +kernel
  obtain ⟨s, hrun, hs⟩ := map_eq_some_iff.mp hevents
  have hclean := (handles_survive_unmount oneDisk _ _ _ _ remount s hrun).1 (by decide +kernel)
  exact ⟨s, hrun, hclean, hs⟩

/-- `"/"` is opened, unmounted and read: `readdir` is called through a slot without
operations. -/
theorem readdir_after_umount :
    (run (handleStep oneDisk) quietBoot
      [.open [47] 0, .umount [47], .read firstFile 264 0]).map (·.events) =
        some [.readdir false] ∧
      (run (handleStep oneDisk) quietBoot
        [.open [47] 0, .umount [47]]).map (fun s => (s.mounts rootSlot).ops) = some none := by
  decide +kernel

end Handles

end Crius.Fs
