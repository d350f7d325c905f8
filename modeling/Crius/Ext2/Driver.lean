import Crius.Ext2.File
import Crius.Fs.Ramfs

/-!
# The ext2 driver

`ext2_ops.c` and the mounting in `ext2.c`. The driver keeps one volume in global
variables. A mount saves them in a context, its `fs_private`, and every callback that gets
a context restores them from it; the callbacks of open files get none and work on
whatever the variables hold.

The log of the driver names the device of each transfer.
-/
namespace Crius.Ext2

open Abi
open Fs.Ramfs (slash dot lastName)

/-! ## Paths -/

/-- The names that the loop of `ext2_resolve_path` cuts out of a path. -/
def pathNames (path : List UInt8) : List (List UInt8) :=
  let rest := if path.head? = some slash then path.tail else path
  let names := rest.splitOn slash
  if names.getLast? = some [] then names.dropLast else names

/-- `EXT2_ROOT_INO` -/
def rootIno : Nat := 2

def walkNames : List (List UInt8) → Nat → M (Option Nat)
  | [], cur => return some cur
  | name :: names, cur => do
    if name = [dot] then walkNames names cur
    else if name = [dot, dot] then
      match ← lookup cur name with
      | some parent => walkNames names parent
      | none => walkNames names cur
    else
      match ← lookup cur name with
      | some next => walkNames names next
      | none => return none

/-- `ext2_resolve_path` -/
def resolvePath (path : List UInt8) : M (Option Nat) := walkNames (pathNames path) rootIno

/-- `ext2_split_path`: the path of the parent and the last name. -/
def splitPath (path : List UInt8) : Option (List UInt8 × List UInt8) :=
  let rest := if path.head? = some slash then path.tail else path
  let name := lastName path
  if slash ∈ rest then
    let parent := path.take (path.length - name.length - 1)
    if 255 ≤ parent.length ∨ 255 ≤ name.length then none
    else
      let parent :=
        if parent.getLast? = some slash ∧ 1 < parent.length then parent.dropLast else parent
      some (if parent = [] then [slash] else parent, name)
  else if 255 ≤ rest.length then none
  else some ([slash], rest)

/-- The inode of the parent directory and the last name of a path. -/
def parentOf (path : List UInt8) : M (Option (Nat × List UInt8)) := do
  match splitPath path with
  | none => return none
  | some (parent, name) => return (← resolvePath parent).map fun ino => (ino, name)

/-- The inode that `ext2_fs_open` opens: the one at the path or, with `O_CREAT`, a new one. -/
def openIno (path : List UInt8) (flags : Int) : M (Option Nat) := do
  match ← resolvePath path with
  | some ino => return some ino
  | none =>
    if oCreat flags then
      match ← parentOf path with
      | none => return none
      | some (parent, name) =>
        if ← createFile parent name then resolvePath path else return none
    else return none

/-- `ext2_fs_open`: the inode, and whether it is a directory. -/
def fsOpen (path : List UInt8) (flags : Int) : M (Option (Nat × Bool)) := do
  match ← openIno path flags with
  | none => return none
  | some ino =>
    match ← readInode ino with
    | none => return none
    | some inode =>
      if oTrunc flags ∧ fileType inode = sIfreg then
        let _ ← writeInode ino (setBlocks (setSize inode 0) 0)
      return some (ino, fileType inode = sIfdir)

/-- `ext2_fs_stat`: the number of the inode and its bytes, which hold the other fields. -/
def fsStat (path : List UInt8) : M (Option (Nat × Bytes)) := do
  match ← resolvePath path with
  | none => return none
  | some ino => return (← readInode ino).map fun inode => (ino, inode)

/-- A directory entry as `ext2_readdir_pick` fills it in. -/
structure Dirent where
  inode : Nat
  isDir : Bool
  name : List UInt8
  deriving DecidableEq, Repr

/-- The records of a block that `ext2_list_dir` reports, without `"."` and `".."`. -/
def listedRecords (buf : Bytes) (size : Nat) : Nat → Nat → List Dirent
  | 0, _ => []
  | fuel + 1, offset =>
    if size ≤ offset ∨ deRecLen buf offset = 0 then []
    else
      let rest := listedRecords buf size fuel (offset + deRecLen buf offset)
      let name := deName buf offset (min (deNameLen buf offset) 254)
      if deInode buf offset = 0 ∨ deNameLen buf offset = 0 ∨ name = [dot] ∨ name = [dot, dot] then
        rest
      else ⟨deInode buf offset, deType buf offset = 2, name⟩ :: rest

/-- The loop over the blocks in `ext2_list_dir`, which counts down to the wanted entry. -/
def listLoop (inode : Bytes) : Nat → Nat → Nat → Bytes → M (Option Dirent)
  | 0, _, _, _ => return none
  | left + 1, logical, index, buf => do
    let phys ← getBlockFromInode inode logical
    if phys = 0 then return none
    else
      match ← readBlock phys buf with
      | (false, _) => return none
      | (true, buf) =>
        let bs := (← read).blockSize
        let entries := listedRecords buf bs bs 0
        match entries[index]? with
        | some entry =>
          -- the walk goes on to the last block
          let _ ← listLoop inode left (logical + 1) 0 buf
          return some entry
        | none => listLoop inode left (logical + 1) (index - entries.length) buf

/-- `ext2_fs_readdir`; the result is `none` for an error and `some none` at the end. -/
def fsReaddir (path : List UInt8) (index : Nat) : M (Option (Option Dirent)) := do
  match ← resolvePath path with
  | none => return none
  | some ino =>
    match ← readInode ino with
    | none => return none
    | some inode =>
      if fileType inode ≠ sIfdir then return none
      else
        -- `ext2_list_dir` reads the inode again; its own errors are not seen
        match ← readInode ino with
        | none => return some none
        | some inode =>
          if fileType inode ≠ sIfdir then return some none
          else
            match ← kmalloc with
            | none => return some none
            | some buf => return some (← listLoop inode (← dirBlocks inode) 0 index buf)

/-! ## The global variables -/

/-- The variables of `ext2.c`; `bgds` is a pointer, with 0 for `NULL`. -/
structure Globals where
  mounted : Bool
  curBd : Option Nat
  blockSize : Nat
  blocksPerGroup : Nat
  inodesPerGroup : Nat
  inodeSize : Nat
  numGroups : Nat
  firstDataBlock : Nat
  sb : Bytes
  bgds : Nat

def Globals.geo (g : Globals) : Geo :=
  ⟨g.mounted, g.curBd.isSome, g.blockSize, g.blocksPerGroup, g.inodesPerGroup, g.inodeSize,
    g.numGroups, g.firstDataBlock⟩

/-- The driver with its memory and the block devices. A context that was freed is `none`. -/
structure Driver where
  vars : Globals
  bgdMem : Nat → Bytes
  ctxs : Nat → Option Globals
  next : Nat
  disks : Nat → Bytes
  oracle : Nat → Bool
  clock : Nat
  junk : Bytes
  log : List Nat

namespace Driver

variable {α : Type}

/-- The volume that the variables describe. -/
def vol (s : Driver) : Vol where
  sb := s.vars.sb
  bgds := s.bgdMem s.vars.bgds
  disk := s.vars.curBd.elim Bytes.zero s.disks
  oracle := s.oracle
  clock := s.clock
  junk := s.junk

/-- The devices of `n` transfers through `cur_bd`. -/
def transfers (s : Driver) (n : Nat) : List Nat := s.vars.curBd.elim [] (List.replicate n)

/-- The driver after code that worked on the volume with `n` transfers. -/
def update (s : Driver) (v : Vol) (n : Nat) : Driver :=
  { s with
    vars := { s.vars with sb := v.sb }
    bgdMem := Function.update s.bgdMem s.vars.bgds v.bgds
    disks := s.vars.curBd.elim s.disks fun d => Function.update s.disks d v.disk
    clock := v.clock
    log := s.log ++ s.transfers n }

/-- Run code of the volume. -/
def exec (m : M α) (s : Driver) : Option (α × Driver) :=
  match m s.vars.geo s.vol with
  | none => none
  | some (a, v, n) => some (a, s.update v n)

def setBd (bd : Option Nat) (s : Driver) : Driver := { s with vars := { s.vars with curBd := bd } }

/-- The first sectors of a volume, which hold the superblock. -/
def loadSuperblock : M (Option Bytes) := do
  match ← kmalloc with
  | none => return none
  | some buf =>
    match ← readSectorsOff 2 2 buf with
    | (false, _) => return none
    | (true, buf) => return some (Bytes.zero.blit 0 buf sbSize)

/-- The loop of `ext2_do_mount` over the blocks of the group descriptors. -/
def loadBgdsLoop : Nat → Nat → Nat → Nat → Bytes → Bytes → M (Option Bytes)
  | 0, remaining, _, _, _, bgds => if remaining = 0 then return some bgds else crash
  | fuel + 1, remaining, offset, block, buf, bgds => do
    if remaining = 0 then return some bgds
    else
      match ← readBlock block buf with
      | (false, _) => return none
      | (true, buf) =>
        let chunk := min remaining (← read).blockSize
        loadBgdsLoop fuel (remaining - chunk) (u32 (offset + chunk)) (u32 (block + 1)) buf
          (bgds.blit offset buf chunk)

/-- The group descriptors, with the buffers for them and for a block. -/
def loadBgds : M (Option Bytes) := do
  let g ← read
  match ← kmalloc with
  | none => return none
  | some bgds =>
    match ← kmalloc with
    | none => return none
    | some buf =>
      let size := u32 (g.numGroups * bgdSize)
      loadBgdsLoop size size 0 (u32 (g.firstDataBlock + 1)) buf bgds

/-- `EXT2_MAGIC` -/
def magic : Nat := 0xEF53

/-- The geometry that a superblock describes; `none` for the division by zero. -/
def geometry (g : Globals) (sb : Bytes) : Option Globals :=
  let bpg := sb.u32At 32
  let first := sb.u32At 20
  if bpg = 0 then none
  else
    some { g with
      sb := sb
      blockSize := u32 (1024 * 2 ^ sb.u32At 24)
      blocksPerGroup := bpg
      inodesPerGroup := sb.u32At 40
      inodeSize := if sb.u16At 88 = 0 then 128 else sb.u16At 88
      firstDataBlock := first
      numGroups := u32 (sb.u32At 4 + (2 ^ 32 - first) + bpg - 1) / bpg }

/-- `ext2_do_mount` -/
def doMount (bd : Nat) (s : Driver) : Option (Bool × Driver) :=
  if s.vars.mounted then some (false, s)
  else
    match (s.setBd (some bd)).exec loadSuperblock with
    | none => none
    | some (none, s) => some (false, s.setBd none)
    | some (some sb, s) =>
      if sb.u16At 56 ≠ magic then
        some (false, { s with vars := { s.vars with sb := sb, curBd := none } })
      else
        match geometry s.vars sb with
        | none => none
        | some vars =>
          match ({ s with vars := { vars with bgds := s.next }, next := s.next + 1 }).exec loadBgds with
          | none => none
          | some (none, s) => some (false, s.setBd none)
          | some (some bgds, s) =>
            some (true, { s with
              vars := { s.vars with mounted := true }
              bgdMem := Function.update s.bgdMem s.vars.bgds bgds })

/-- `ext2_umount` -/
def umount (s : Driver) : Driver :=
  if s.vars.mounted then
    { s with vars := { s.vars with mounted := false, curBd := none, bgds := 0 } }
  else s

/-- `ext2_fs_mount`: the new context. -/
def fsMount (bd : Nat) (s : Driver) : Option (Option Nat × Driver) :=
  match s.doMount bd with
  | none => none
  | some (false, s) => some (none, s)
  | some (true, s) =>
    match s.exec kmalloc with
    | none => none
    | some (none, s) => some (none, s.umount)
    | some (some _, s) =>
      some (some s.next,
        { s with ctxs := Function.update s.ctxs s.next (some s.vars), next := s.next + 1 })

/-- `ext2_restore_ctx`; a context that was freed is not looked into. -/
def restore (ctx : Nat) (s : Driver) : Option Driver :=
  (s.ctxs ctx).map fun vars => { s with vars := vars }

/-- `ext2_fs_unmount` -/
def fsUnmount (ctx : Nat) (s : Driver) : Option Driver :=
  (s.restore ctx).map fun s => { s.umount with ctxs := Function.update s.ctxs ctx none }

/-- A callback of a mounted volume. -/
def callback (ctx : Nat) (m : M α) (s : Driver) : Option (α × Driver) :=
  (s.restore ctx).bind (exec m)

theorem exec_eq_some {m : M α} {s d : Driver} {a : α} (h : s.exec m = some (a, d)) :
    ∃ v n, m s.vars.geo s.vol = some (a, v, n) ∧ d = s.update v n := by
  unfold exec at h
  split at h
  · cases h
  · rename_i b v n hm
    cases h
    exact ⟨v, n, hm, rfl⟩

/-! ## Which volume is mounted -/

/-- Which device is mounted, and the saved variables. -/
def volume (d : Driver) : Bool × Option Nat × (Nat → Option Globals) :=
  (d.vars.mounted, d.vars.curBd, d.ctxs)

theorem exec_volume {m : M α} {d d' : Driver} {a : α} (h : d.exec m = some (a, d')) :
    d'.volume = d.volume := by
  obtain ⟨v, n, -, rfl⟩ := exec_eq_some h
  rfl

/-- `ext2_do_mount` refuses a second volume. Otherwise a volume is mounted if it succeeds. -/
theorem doMount_volume {bd : Nat} {d d' : Driver} {ok : Bool} (h : d.doMount bd = some (ok, d')) :
    d.vars.mounted = true ∧ ok = false ∧ d' = d ∨ d.vars.mounted = false ∧
      d'.vars.mounted = ok ∧ d'.vars.curBd = if ok then some bd else none := by
  unfold doMount at h
  split at h
  · rename_i hmounted
    cases h
    exact .inl ⟨hmounted, rfl, rfl⟩
  rename_i hmounted
  have hfree : d.vars.mounted = false := by simpa using hmounted
  refine .inr ⟨hfree, ?_⟩
  split at h
  · cases h
  · rename_i d₁ hload
    cases h
    have hm : d₁.vars.mounted = d.vars.mounted := congrArg Prod.fst (exec_volume hload)
    exact ⟨hm.trans hfree, rfl⟩
  rename_i sb d₁ hload
  have hm : d₁.vars.mounted = d.vars.mounted := congrArg Prod.fst (exec_volume hload)
  have hbd : d₁.vars.curBd = some bd := congrArg (·.2.1) (exec_volume hload)
  split at h
  · cases h
    exact ⟨hm.trans hfree, rfl⟩
  split at h
  · cases h
  rename_i vars hgeo
  have hvars : vars.mounted = false ∧ vars.curBd = some bd := by
    unfold geometry at hgeo
    dsimp only at hgeo
    rw [Option.ite_none_left_eq_some] at hgeo
    rw [← Option.some.inj hgeo.2]
    exact ⟨hm.trans hfree, hbd⟩
  split at h
  · cases h
  · rename_i d₂ hbgds
    cases h
    have hm₂ : d₂.vars.mounted = vars.mounted := congrArg Prod.fst (exec_volume hbgds)
    exact ⟨hm₂.trans hvars.1, rfl⟩
  · rename_i bgds d₂ hbgds
    cases h
    have hbd₂ : d₂.vars.curBd = vars.curBd := congrArg (·.2.1) (exec_volume hbgds)
    exact ⟨rfl, hbd₂.trans hvars.2⟩

/-- A mount that succeeds saves the variables of its volume. -/
theorem fsMount_volume {bd : Nat} {d d' : Driver} {r : Option Nat}
    (h : d.fsMount bd = some (r, d')) :
    d.vars.mounted = true ∧ r = none ∧ d' = d ∨ d.vars.mounted = false ∧
      (r = none ∧ d'.vars.mounted = false ∧ d'.vars.curBd = none ∨
        ∃ ctx, r = some ctx ∧ d'.ctxs ctx = some d'.vars ∧
        d'.vars.mounted = true ∧ d'.vars.curBd = some bd) := by
  unfold fsMount at h
  split at h
  · cases h
  · rename_i d₁ hmount
    cases h
    rcases doMount_volume hmount with ⟨hm, -, rfl⟩ | ⟨hm, hfail⟩
    · exact .inl ⟨hm, rfl, rfl⟩
    · exact .inr ⟨hm, .inl ⟨rfl, hfail⟩⟩
  · rename_i d₁ hmount
    rcases doMount_volume hmount with ⟨-, hok, -⟩ | ⟨hm, hok, hbd⟩
    · cases hok
    refine .inr ⟨hm, ?_⟩
    split at h
    · cases h
    · rename_i d₂ hmem
      cases h
      have hm₂ : d₂.vars.mounted = d₁.vars.mounted := congrArg Prod.fst (exec_volume hmem)
      left
      rw [umount, if_pos (hm₂.trans hok)]
      exact ⟨rfl, rfl, rfl⟩
    · rename_i d₂ hmem
      cases h
      have hm₂ : d₂.vars.mounted = d₁.vars.mounted := congrArg Prod.fst (exec_volume hmem)
      have hbd₂ : d₂.vars.curBd = d₁.vars.curBd := congrArg (·.2.1) (exec_volume hmem)
      exact .inr ⟨_, rfl, Function.update_self .., hm₂.trans hok, hbd₂.trans hbd⟩

/-- The transfers of code go to the current device. -/
theorem exec_log {m : M α} {d d' : Driver} {a : α} (h : d.exec m = some (a, d')) :
    d'.log = d.log ++ d'.log.drop d.log.length ∧
      ∀ x ∈ d'.log.drop d.log.length, x ∈ d.vars.curBd := by
  obtain ⟨v, n, -, rfl⟩ := exec_eq_some h
  have hlog : (d.update v n).log.drop d.log.length = d.transfers n := List.drop_left
  rw [hlog]
  refine ⟨rfl, fun x hx => ?_⟩
  unfold transfers at hx
  cases hbd : d.vars.curBd with
  | none =>
    rw [hbd] at hx
    cases hx
  | some bd =>
    rw [hbd] at hx
    rw [List.eq_of_mem_replicate hx]
    rfl

end Driver

end Crius.Ext2
