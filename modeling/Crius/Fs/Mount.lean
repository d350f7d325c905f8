import Crius.Fs.Path

/-!
# The mount table

`fs/vfs/vfs_mount.c` and the lookup of mounts in `fs/vfs/vfs.c`. What a file system does
when it is mounted or unmounted is a parameter over the state `σ` behind the table: the
heap, the block devices and the variables of the file system. The operation tables are
constants of the source, so a slot names its table.

A mount goes into the first free slot and several mounts may share a path, while an
unmount takes the first slot with the path. It takes the slot of the mount exactly when
no used slot below the first free one has that path and the path was stored whole.
-/
namespace Crius.Fs

open Abi Function List
open Ramfs (slash)

/-- `VFS_MAX_MOUNTS` -/
def vfsMaxMounts : Nat := 16

/-- An index of `mounts[]`. -/
abbrev Slot := Fin vfsMaxMounts

/-- Slot 0, which `vfs_init` gives to the ramfs. -/
def rootSlot : Slot := ⟨0, by decide⟩

/-- The `struct filesystem_ops` tables of the source. -/
inductive FsType where
  | ramfs
  | ext2
  deriving DecidableEq, Repr

/-- `struct vfs_mount`; a block device is its index in `registered[]`. -/
structure Mount where
  used : Bool
  path : List UInt8
  device : List UInt8
  ops : Option FsType
  fsPrivate : Nat
  deviceBdev : Option Nat
  path_fits : path.length < 128
  device_fits : device.length < 64
  deriving DecidableEq

abbrev MountTable := Slot → Mount

/-- A slot that was never used. -/
def Mount.zero : Mount where
  used := false
  path := []
  device := []
  ops := none
  fsPrivate := 0
  deviceBdev := none
  path_fits := by decide
  device_fits := by decide

namespace MountTable

variable (t : MountTable)

/-- The new slot `i` is inserted before the entry `j`: the longer path first, then the
mount with a block device, then the lower index. -/
def precedes (i j : Slot) : Bool :=
  (t j).path.length < (t i).path.length ||
    ((t i).path.length == (t j).path.length &&
      (((t i).deviceBdev.isSome && !(t j).deviceBdev.isSome) ||
        ((t i).deviceBdev.isSome == (t j).deviceBdev.isSome && decide (i < j))))

/-- The loop of `find_mounts`, which ends when `out` is full. -/
def collect (path : List UInt8) (max : Nat) : List Slot → List Slot → List Slot
  | [], out => out
  | i :: rest, out =>
    if !(t i).used then collect path max rest out
    else if !pathStartsWith path (t i).path then collect path max rest out
    else
      let pos := out.findIdx (precedes t i)
      if max ≤ pos then collect path max rest out
      else
        let out := out.insertIdx pos i
        if max ≤ out.length then out else collect path max rest out

/-- `find_mounts` -/
def findMounts (path : List UInt8) (max : Nat) : List Slot :=
  collect t path max (List.finRange vfsMaxMounts) []

/-- `find_mount` -/
def findMount (path : List UInt8) : Option Slot := (findMounts t path 4).head?

/-- The first unused slot. -/
def freeSlot : Option Slot := (List.finRange vfsMaxMounts).find? fun i => !(t i).used

/-- The first slot with this path. -/
def slotAt (path : List UInt8) : Option Slot :=
  (List.finRange vfsMaxMounts).find? fun i => (t i).used && (t i).path == path

/-- What `vfs_mount` writes into a slot: the path and the device are cut to their fields. -/
def put (j : Slot) (path device : List UInt8) (fs : FsType) (priv bd : Nat) : MountTable :=
  Function.update t j
    { used := true
      path := path.take 127
      device := device.take 63
      ops := some fs
      fsPrivate := priv
      deviceBdev := some bd
      path_fits := by
        rw [List.length_take]
        omega
      device_fits := by
        rw [List.length_take]
        omega }

/-- What `vfs_umount` writes into a slot; the path and the device stay. -/
def clear (i : Slot) : MountTable :=
  Function.update t i { t i with used := false, ops := none, fsPrivate := 0, deviceBdev := none }

end MountTable

/-- The callbacks of the file systems; a successful mount gives its private word. Only
`ext2_fs_ops` has an `unmount`. -/
structure FsDrivers (σ : Type) where
  mount : FsType → Nat → σ → Option Nat × σ
  unmount : FsType → Option (Nat → σ → σ)

/-- The mount table over the state of the file systems. -/
structure Vfs (σ : Type) where
  mounts : MountTable
  rest : σ

/-- The kernel around the table: the registered file systems and block devices, and the
working directory of the current task. -/
structure VfsEnv (σ : Type) where
  drivers : FsDrivers σ
  registeredFs : List FsType
  blockDeviceFind : List UInt8 → Option Nat
  cwd : Option (List UInt8)

/-- `"/dev/"` -/
def devDir : List UInt8 := [47, 100, 101, 118, 47]

def deviceName (device : List UInt8) : List UInt8 :=
  if devDir.isPrefixOf device then device.drop 5 else device

section

variable {σ : Type} (E : VfsEnv σ)

/-- `resolve_abs` into the 256 bytes of the callers. -/
def VfsEnv.abs (path : List UInt8) : List UInt8 := resolveAbs 256 E.cwd path

/-- The loop of `vfs_mount` over the registered file systems. -/
def tryFilesystems (abs device : List UInt8) (bd : Nat) : List FsType → Vfs σ → Int × Vfs σ
  | [], v => (-ENODEV, v)
  | fs :: rest, v =>
    if fs = .ramfs then tryFilesystems abs device bd rest v
    else
      match E.drivers.mount fs bd v.rest with
      | (none, e) => tryFilesystems abs device bd rest { v with rest := e }
      | (some priv, e) =>
        match v.mounts.freeSlot with
        | none => (-ENOSPC, { v with rest := e })
        | some j => (0, { mounts := v.mounts.put j abs device fs priv bd, rest := e })

def vfsMount (device path : List UInt8) (v : Vfs σ) : Int × Vfs σ :=
  if (List.finRange vfsMaxMounts).any fun i =>
      (v.mounts i).used && (v.mounts i).path == E.abs path && (v.mounts i).device == device then
    (-EEXIST, v)
  else
    match E.blockDeviceFind (deviceName device) with
    | none => (-ENODEV, v)
    | some bd => tryFilesystems E (E.abs path) device bd E.registeredFs v

def vfsUmount (path : List UInt8) (v : Vfs σ) : Int × Vfs σ :=
  match v.mounts.slotAt (E.abs path) with
  | none => (-ENOENT, v)
  | some i =>
    let rest :=
      match (v.mounts i).ops.bind E.drivers.unmount with
      | none => v.rest
      | some unmount => unmount (v.mounts i).fsPrivate v.rest
    (0, { mounts := v.mounts.clear i, rest := rest })

end

/-- The mount of the ramfs at `"/"`. -/
def rootMount : Mount where
  used := true
  path := [slash]
  device := []
  ops := some .ramfs
  fsPrivate := 0
  deviceBdev := none
  path_fits := by decide
  device_fits := by decide

/-- The table after `vfs_init`. -/
def vfsInit : MountTable := Function.update (fun _ => Mount.zero) rootSlot rootMount

namespace MountTable

variable {t t' : MountTable} {i j : Slot} {path : List UInt8}

/-- The same slots are used, with the same contents. -/
def Same (t t' : MountTable) : Prop :=
  ∀ i, (t i).used = (t' i).used ∧ ((t i).used = true → t i = t' i)

theorem Same.precedes (h : Same t t') (hi : (t i).used = true) (hj : (t j).used = true) :
    precedes t i j = precedes t' i j := by
  have hi' := (h i).2 hi
  have hj' := (h j).2 hj
  simp only [MountTable.precedes, hi', hj']

theorem findIdx_congr {p q : Slot → Bool} {l : List Slot} (h : ∀ x ∈ l, p x = q x) :
    l.findIdx p = l.findIdx q := by
  induction l with
  | nil => rfl
  | cons x xs ih =>
    have hx := h x mem_cons_self
    have hxs := ih fun y hy => h y (mem_cons_of_mem x hy)
    rw [findIdx_cons, findIdx_cons, hx, hxs]

/-- The list holds used slots only, so the loop reads nothing else of the table. -/
theorem Same.collect (h : Same t t') (max : Nat) (rest out : List Slot)
    (hout : ∀ x ∈ out, (t x).used = true) :
    collect t path max rest out = collect t' path max rest out := by
  induction rest generalizing out with
  | nil => rfl
  | cons i rest ih =>
    have hused := (h i).1
    by_cases hi : (t i).used = true
    · have heq := (h i).2 hi
      have hpos : out.findIdx (MountTable.precedes t i) = out.findIdx (MountTable.precedes t' i) :=
        findIdx_congr fun x hx => h.precedes hi (hout x hx)
      have hins : ∀ x ∈ out.insertIdx (out.findIdx (MountTable.precedes t' i)) i,
          (t x).used = true := by
        intro x hx
        rcases eq_or_mem_of_mem_insertIdx hx with rfl | hx
        · exact hi
        · exact hout x hx
      simp only [MountTable.collect, hpos, ← heq, ih out hout, ih _ hins]
    · have hi' : (t i).used = false := Bool.eq_false_iff.mpr hi
      simp only [MountTable.collect, ← hused, hi', Bool.not_false, if_true, ih out hout]

/-- Every path resolves through the same mounts. -/
theorem Same.findMounts (h : Same t t') (path : List UInt8) (max : Nat) :
    findMounts t path max = findMounts t' path max :=
  h.collect max _ [] fun _ hx => absurd hx not_mem_nil

/-- The loop over the slots finds the first one. -/
theorem find?_slot {p : Slot → Bool} :
    (finRange vfsMaxMounts).find? p = some j ↔ p j = true ∧ ∀ i < j, p i = false := by
  rw [find?_eq_some_iff_getElem]
  constructor
  · intro ⟨hp, k, hk, hj, hbefore⟩
    rw [getElem_finRange] at hj
    subst hj
    refine ⟨hp, fun i hi => ?_⟩
    have hb := hbefore i.val hi
    rw [getElem_finRange, Bool.not_eq_true'] at hb
    exact hb
  · intro ⟨hp, hbefore⟩
    have hlen : j.val < (finRange vfsMaxMounts).length := by
      rw [length_finRange]
      exact j.isLt
    refine ⟨hp, j.val, hlen, getElem_finRange hlen, fun k hk => ?_⟩
    rw [getElem_finRange, Bool.not_eq_true']
    exact hbefore ⟨k, _⟩ hk

theorem freeSlot_eq_some : freeSlot t = some j ↔
    (t j).used = false ∧ ∀ i < j, (t i).used = true := by
  simp only [freeSlot, find?_slot, Bool.not_eq_true', Bool.not_eq_false']

theorem slotAt_eq_some : slotAt t path = some j ↔
    ((t j).used = true ∧ (t j).path = path) ∧ ∀ i < j, (t i).used = true → (t i).path ≠ path := by
  simp only [slotAt, find?_slot, Bool.and_eq_true, beq_iff_eq, Bool.and_eq_false_imp,
    beq_eq_false_iff_ne]

@[simp]
theorem put_self (t : MountTable) (j : Slot) (path device : List UInt8) (fs : FsType) (priv bd : Nat) :
    (put t j path device fs priv bd j).used = true ∧
      (put t j path device fs priv bd j).path = path.take 127 := by
  simp only [put, update_self, and_self]

theorem put_of_ne (t : MountTable) (path device : List UInt8) (fs : FsType) (priv bd : Nat)
    (h : i ≠ j) : put t j path device fs priv bd i = t i :=
  update_of_ne h _ _

@[simp]
theorem clear_self (t : MountTable) (i : Slot) : (clear t i i).used = false := by
  simp only [clear, update_self]

theorem clear_of_ne (t : MountTable) (h : i ≠ j) : clear t j i = t i :=
  update_of_ne h _ _

/-- An unmount of `path` after a mount takes the slot of the mount: the path is stored
whole, and a slot that already has it lies above a free one. -/
def Unmountable (t : MountTable) (path : List UInt8) : Prop :=
  path.length < 128 ∧ ∀ i, (t i).used = true → (t i).path = path → ∃ j < i, (t j).used = false

instance (path : List UInt8) : Decidable (Unmountable t path) :=
  inferInstanceAs (Decidable (_ ∧ _))

section

variable (hfree : freeSlot t = some j) (device : List UInt8) (fs : FsType) (priv bd : Nat)

include hfree

/-- A table with a new mount in its first free slot, and the slot that an unmount takes. -/
theorem slotAt_put : slotAt (put t j path device fs priv bd) path = some j ↔
      Unmountable t path := by
  obtain ⟨hj, hbelow⟩ := freeSlot_eq_some.mp hfree
  obtain ⟨hused, hpath⟩ := put_self t j path device fs priv bd
  rw [slotAt_eq_some, hpath]
  constructor
  · intro ⟨⟨_, hwhole⟩, hfirst⟩
    have hlen : path.length < 128 := by
      have hl := congrArg length hwhole
      rw [length_take] at hl
      omega
    refine ⟨hlen, fun i hi hp => ⟨j, ?_, hj⟩⟩
    -- below the new slot nothing has the path, and the slot itself was free
    rcases lt_trichotomy i j with hlt | rfl | hgt
    · have hi' := hfirst i hlt
      rw [put_of_ne t path device fs priv bd (ne_of_lt hlt)] at hi'
      exact absurd hp (hi' hi)
    · rw [hj] at hi
      exact absurd hi Bool.false_ne_true
    · exact hgt
  · intro ⟨hlen, habove⟩
    refine ⟨⟨hused, take_of_length_le (by omega)⟩, fun i hi hi' hp => ?_⟩
    rw [put_of_ne t path device fs priv bd (ne_of_lt hi)] at hi' hp
    obtain ⟨k, hk, hkused⟩ := habove i hi' hp
    rw [hbelow k (lt_trans hk hi)] at hkused
    exact absurd hkused Bool.noConfusion

/-- Clearing a slot of the new table gives the old one back if it is the new slot. -/
theorem same_clear_put (hi : (put t j path device fs priv bd i).used = true) :
    Same (clear (put t j path device fs priv bd) i) t ↔ i = j := by
  obtain ⟨hj, -⟩ := freeSlot_eq_some.mp hfree
  constructor
  · intro hsame
    by_contra hne
    have h := (hsame i).1
    rw [clear_self, ← put_of_ne t path device fs priv bd hne, hi] at h
    exact absurd h Bool.false_ne_true
  · rintro rfl k
    by_cases hk : k = i
    · subst hk
      rw [clear_self]
      exact ⟨hj.symm, fun h => absurd h Bool.false_ne_true⟩
    · rw [clear_of_ne _ hk, put_of_ne t path device fs priv bd hk]
      exact ⟨rfl, fun _ => rfl⟩

end

end MountTable

section

variable {σ : Type} {E : VfsEnv σ} {v v' : Vfs σ} {device path : List UInt8}

/-- A mount that returns 0 filled the first free slot. -/
theorem tryFilesystems_ok {abs : List UInt8} {bd : Nat} {types : List FsType}
    (h : tryFilesystems E abs device bd types v = (0, v')) :
    ∃ j fs priv, v.mounts.freeSlot = some j ∧
      v'.mounts = v.mounts.put j abs device fs priv bd := by
  induction types generalizing v with
  | nil => simp [tryFilesystems, ENODEV] at h
  | cons fs rest ih =>
    rw [tryFilesystems] at h
    split_ifs at h with hfs
    · exact ih h
    · rcases hmount : E.drivers.mount fs bd v.rest with ⟨priv, e⟩
      cases priv with
      | none =>
        rw [hmount] at h
        exact ih (v := { v with rest := e }) h
      | some priv =>
        cases hfree : v.mounts.freeSlot with
        | none => simp [hmount, hfree, ENOSPC] at h
        | some j =>
          simp only [hmount, hfree, Prod.mk.injEq, true_and] at h
          exact ⟨j, fs, priv, rfl, (congrArg Vfs.mounts h).symm⟩

theorem vfsMount_ok (h : vfsMount E device path v = (0, v')) :
    ∃ j fs priv bd, v.mounts.freeSlot = some j ∧
      v'.mounts = v.mounts.put j (E.abs path) device fs priv bd := by
  rw [vfsMount] at h
  split at h
  · simp [EEXIST] at h
  · split at h
    · simp [ENODEV] at h
    · rename_i bd _
      obtain ⟨j, fs, priv, hfree, hput⟩ := tryFilesystems_ok h
      exact ⟨j, fs, priv, bd, hfree, hput⟩

/-- An unmount of the path of a successful mount restores the table, and with it the
mounts of every path, exactly when the path can be unmounted again. -/
theorem umount_undoes_mount (E : VfsEnv σ) (device path : List UInt8) (v v' : Vfs σ)
    (h : vfsMount E device path v = (0, v')) :
    ((vfsUmount E path v').1 = 0 ∧
        MountTable.Same (vfsUmount E path v').2.mounts v.mounts ∧
        ∀ (p : List UInt8) (max : Nat),
          (vfsUmount E path v').2.mounts.findMounts p max = v.mounts.findMounts p max) ↔
      v.mounts.Unmountable (E.abs path) := by
  obtain ⟨j, fs, priv, bd, hfree, hput⟩ := vfsMount_ok h
  rw [← MountTable.slotAt_put hfree device fs priv bd, ← hput]
  cases hslot : v'.mounts.slotAt (E.abs path) with
  | none =>
    simp only [vfsUmount, hslot, reduceCtorEq, iff_false, not_and]
    exact fun h0 => absurd h0 (by decide)
  | some i =>
    obtain ⟨⟨hused, -⟩, -⟩ := MountTable.slotAt_eq_some.mp hslot
    rw [hput] at hused
    have hsame := MountTable.same_clear_put hfree device fs priv bd hused
    rw [← hput] at hsame
    simp only [vfsUmount, hslot, true_and, Option.some.injEq]
    rw [← hsame]
    exact ⟨fun hs => hs.1, fun hs => ⟨hs, hs.findMounts⟩⟩

/-- A file system that mounts anything and keeps nothing. -/
def bareFs : FsDrivers Unit where
  mount _ _ e := (some 1, e)
  unmount
    | .ramfs => none
    | .ext2 => some fun _ e => e

/-- One block device, `"hda"`, and a task in `"/"`. -/
def bareEnv : VfsEnv Unit where
  drivers := bareFs
  registeredFs := [.ramfs, .ext2]
  blockDeviceFind name := if name = [104, 100, 97] then some 0 else none
  cwd := none

/-- A volume mounted at `"/mnt"` goes away again. -/
theorem umount_undoes_mount_mnt :
    MountTable.Same
      (vfsUmount bareEnv [47, 109, 110, 116]
        (vfsMount bareEnv [104, 100, 97] [47, 109, 110, 116] ⟨vfsInit, ()⟩).2).2.mounts vfsInit :=
  ((umount_undoes_mount bareEnv [104, 100, 97] [47, 109, 110, 116] ⟨vfsInit, ()⟩ _ rfl).mpr
    (by decide)).2.1

/-- After a mount of `"hda"` over the ramfs root, an unmount of `"/"` returns 0, removes
the ramfs and leaves the new mount. -/
theorem umount_takes_ramfs_root :
    let v := (vfsMount bareEnv [104, 100, 97] [47] ⟨vfsInit, ()⟩)
    let u := vfsUmount bareEnv [47] v.2
    v.1 = 0 ∧ u.1 = 0 ∧ (vfsInit rootSlot).used = true ∧
      (u.2.mounts rootSlot).used = false ∧
      vfsInit.findMounts [47] 4 = [rootSlot] ∧ u.2.mounts.findMounts [47] 4 = [⟨1, by decide⟩] := by
  decide

end

end Crius.Fs
