import Crius.Fs.Handles
import Crius.Fs.PathNormal

/-!
# The working directory

`vfs_chdir` and `vfs_pwd` of `fs/vfs/vfs.c`. The directory is resolved into 256 bytes and
stored in the 128 bytes of `cwd`, and `vfs_chdir` asks the best mount alone whether it is a
directory, while `vfs_stat` asks the mounts in turn.
-/
namespace Crius.Fs

open Abi Lib.Separated List Option
open Ramfs (slash components)

/-- `ramfs_fs_stat`: the number of the inode. -/
def ramfsFsStat (t : Ramfs) (path : List UInt8) : Option InodeId :=
  match t.resolvePath path with
  | .error _ => none
  | .ok idx => if (t idx).used then some idx else none

namespace Handles

/-! ## The calls -/

/-- What `st_dev` and `st_ino` name. -/
abbrev Object := Slot × Nat

section Callbacks

variable (abs : List UInt8) (i : Slot)

/-- The part of a path below the mount in a slot. -/
def rel (s : Handles) : List UInt8 := stripMount abs (s.mounts i).path

/-- A callback of the ext2 volume in a slot. -/
def askExt2 {α β : Type} (m : Ext2.M α) (answer : α → Option β) (s : Handles) :
    Option (Option β × Handles) :=
  match s.ext2.callback (s.mounts i).fsPrivate m with
  | none => none
  | some (a, d) => some (answer a, { s with ext2 := d })

/-- The `stat` callback of a slot. -/
def statOn (s : Handles) : Option (Option Object × Handles) :=
  match (s.mounts i).ops with
  | none => none
  | some .ramfs => some ((ramfsFsStat s.ram.inodes (s.rel abs i)).map fun idx => (i, idx.val), s)
  | some .ext2 => s.askExt2 i (Ext2.fsStat (s.rel abs i)) (Option.map fun r => (i, r.1))

end Callbacks

/-- The mounts that a path operation asks, in this order. -/
def matching (E : HandleEnv) (path : List UInt8) (s : Handles) : List Slot :=
  s.mounts.findMounts (E.vfs.abs path) 4

/-- The callbacks of the mounts in turn, until one of them succeeds. -/
def firstOf {α : Type} (ask : Slot → Handles → Option (Option α × Handles)) :
    List Slot → Handles → Option (Option α × Handles)
  | [], s => some (none, s)
  | i :: rest, s =>
    match ask i s with
    | none => none
    | some (some a, s) => some (some a, s)
    | some (none, s) => firstOf ask rest s

/-- `vfs_stat` -/
def vfsStat (E : HandleEnv) (path : List UInt8) (s : Handles) : Option (Option Object × Handles) :=
  firstOf (statOn (E.vfs.abs path)) (s.matching E path) s

/-- The `stat` callback of a slot, with `S_ISDIR` of the mode. -/
def statDirOn (abs : List UInt8) (i : Slot) (s : Handles) :
    Option (Option (Object × Bool) × Handles) :=
  match (s.mounts i).ops with
  | none => none
  | some .ramfs =>
    some ((ramfsFsStat s.ram.inodes (s.rel abs i)).map fun idx =>
      ((i, idx.val), decide ((s.ram.inodes idx).type = .dir)), s)
  | some .ext2 =>
    s.askExt2 i (Ext2.fsStat (s.rel abs i)) (Option.map fun r =>
      ((i, r.1), decide (Ext2.fileType r.2 = Ext2.sIfdir)))

/-- `vfs_stat`, with `S_ISDIR` of the mode. -/
def vfsStatDir (E : HandleEnv) (path : List UInt8) (s : Handles) :
    Option (Option (Object × Bool) × Handles) :=
  firstOf (statDirOn (E.vfs.abs path)) (s.matching E path) s

/-- `vfs_chdir`: the result, and the kernel with the `cwd` of the current task. -/
def vfsChdir (E : HandleEnv) (path : List UInt8) (s : Handles) :
    Option (Int × HandleEnv × Handles) :=
  match s.mounts.findMount (E.vfs.abs path) with
  | none => some (-ENOENT, E, s)
  | some i =>
    match statDirOn (E.vfs.abs path) i s with
    | none => none
    | some (none, s) => some (-ENOENT, E, s)
    | some (some (_, false), s) => some (-ENOTDIR, E, s)
    | some (some (_, true), s) =>
      match E.cwd with
      | none => some (-EINVAL, E, s)
      | some _ => some (0, { E with cwd := some ((E.vfs.abs path).take 127) }, s)

/-- `vfs_pwd` into a buffer of `size` bytes. -/
def vfsPwd (E : HandleEnv) (size : Nat) : List UInt8 := (workingDir E.cwd).take (size - 1)

variable {E E' : HandleEnv} {path : List UInt8} {s s' : Handles}

/-- Both models of the callback give the same object. -/
theorem statOn_eq_statDirOn (abs : List UInt8) (i : Slot) (s : Handles) :
    statOn abs i s = (statDirOn abs i s).map fun r => (r.1.map Prod.fst, r.2) := by
  unfold statOn statDirOn
  cases (s.mounts i).ops with
  | none => rfl
  | some fs =>
    cases fs with
    | ramfs =>
      simp only [Option.map_some, Option.map_map]
      rfl
    | ext2 =>
      simp only [askExt2]
      cases s.ext2.callback (s.mounts i).fsPrivate (Ext2.fsStat (s.rel abs i)) with
      | none => rfl
      | some r =>
        simp only [Option.map_some, Option.map_map]
        rfl

theorem vfsStat_eq_statDir (E : HandleEnv) (path : List UInt8) (s : Handles) :
    s.vfsStat E path = (s.vfsStatDir E path).map fun r => (r.1.map Prod.fst, r.2) := by
  unfold vfsStat vfsStatDir
  generalize s.matching E path = l
  induction l generalizing s with
  | nil => rfl
  | cons i rest ih =>
    rw [firstOf, firstOf, statOn_eq_statDirOn]
    cases statDirOn (E.vfs.abs path) i s with
    | none => rfl
    | some r =>
      obtain ⟨answer, s1⟩ := r
      cases answer with
      | none => exact ih s1
      | some a => rfl

/-- A call that returns 0 found a directory in the best mount, and stored what fits. -/
theorem vfsChdir_ok : s.vfsChdir E path = some (0, E', s') ↔
    E.cwd.isSome = true ∧ E' = { E with cwd := some ((E.vfs.abs path).take 127) } ∧
      ∃ i rest o, s.matching E path = i :: rest ∧
        statDirOn (E.vfs.abs path) i s = some (some (o, true), s') := by
  have hfind : s.mounts.findMount (E.vfs.abs path) = (s.matching E path).head? := rfl
  unfold vfsChdir
  rw [hfind]
  cases s.matching E path with
  | nil => simp [ENOENT]
  | cons i rest =>
    simp only [head?_cons]
    cases hask : statDirOn (E.vfs.abs path) i s with
    | none => simp [hask]
    | some r =>
      obtain ⟨answer, s1⟩ := r
      cases answer with
      | none => simp [hask, ENOENT]
      | some a =>
        obtain ⟨o, isDir⟩ := a
        cases isDir with
        | false => simp [hask, ENOTDIR]
        | true =>
          cases hcwd : E.cwd with
          | none => simp [EINVAL]
          | some dir =>
            constructor
            · intro h
              obtain ⟨-, henv⟩ := Prod.mk.inj (some.inj h)
              cases henv
              exact ⟨rfl, rfl, i, rest, o, rfl, hask⟩
            · intro ⟨_, henv, j, rest', o', hl, hj⟩
              obtain ⟨rfl, -⟩ := cons.inj hl
              rw [hask] at hj
              cases hj
              rw [henv]

/-! ## `vfs_pwd` after `vfs_chdir` -/

theorem head?_pushName {size : ℕ} {out comp : List UInt8} (h : out.head? = some slash) :
    (pushName size out comp).head? = some slash := by
  unfold pushName
  split
  · exact h
  · split
    · rfl
    · have hslash : (out ++ [slash]).head? = some slash := by
        rw [head?_append, h]
        rfl
      split
      · rw [head?_append, hslash]
        rfl
      · rw [head?_append, h]
        rfl

theorem head?_resolveAbs (size : ℕ) (cwd : Option (List UInt8)) (path : List UInt8) :
    (resolveAbs size cwd path).head? = some slash := by
  unfold resolveAbs
  have hfold (comps : List (List UInt8)) (out : List UInt8) (hout : out.head? = some slash) :
      (comps.foldl (pushName size) out).head? = some slash := by
    induction comps generalizing out with
    | nil => exact hout
    | cons comp comps ih => exact ih _ (head?_pushName hout)
  exact hfold _ [slash] rfl

/-- `vfs_pwd` gives the directory, and a relative path resolves as the directory followed by a
slash and the path. -/
structure ChdirAgrees (E : HandleEnv) (path : List UInt8) (E' : HandleEnv) : Prop where
  pwd : vfsPwd E' 256 = E.vfs.abs path
  relative : ∀ q, q.head? ≠ some slash → E'.vfs.abs q = E'.vfs.abs (E.vfs.abs path ++ slash :: q)

section Resolve

variable {dir q : List UInt8}

theorem workingDir_of_head (h : dir.head? = some slash) : workingDir (some dir) = dir := by
  cases dir with
  | nil => cases h
  | cons c cs => rfl

/-- A directory other than the root is joined in both cases in the same way. -/
theorem resolveAbs_relative (hdir : dir.head? = some slash) (hroot : dir ≠ [slash])
    (hlen : dir.length ≤ 127) (hq : q.head? ≠ some slash) :
    resolveAbs 256 (some dir) q = resolveAbs 256 (some dir) (dir ++ slash :: q) := by
  have habs : (dir ++ slash :: q).head? = some slash := by
    rw [head?_append, hdir]
    rfl
  have hjoin : joinCwd (some dir) q = joinCwd (some dir) (dir ++ slash :: q) := by
    rw [joinCwd, if_neg hq, workingDir_of_head hdir, if_neg hroot, joinCwd, if_pos habs,
      take_of_length_le (by omega : dir.length ≤ 254)]
  unfold resolveAbs
  rw [hjoin]

/-- Below the root the second slash takes one byte of the 255. -/
theorem resolveAbs_relative_root (hq : q.head? ≠ some slash) (hlen : q.length ≤ 253) :
    resolveAbs 256 (some [slash]) q = resolveAbs 256 (some [slash]) ([slash] ++ slash :: q) := by
  have hleft : joinCwd (some [slash]) q = slash :: q := by
    rw [joinCwd, if_neg hq, if_pos (workingDir_of_head rfl), take_of_length_le (by omega)]
  have hright : joinCwd (some [slash]) ([slash] ++ slash :: q) = slash :: slash :: q := by
    have habs : ([slash] ++ slash :: q).head? = some slash := rfl
    rw [joinCwd, if_pos habs]
    apply take_of_length_le
    simp only [singleton_append, length_cons]
    omega
  unfold resolveAbs
  rw [hleft, hright, components_eq_parts, components_eq_parts, parts_sep_cons, parts_sep_cons,
    parts_sep_cons]

/-- A name of 254 bytes is kept whole in the root and cut behind two slashes. -/
theorem resolveAbs_relative_cut : resolveAbs 256 (some [slash]) (replicate 254 97) ≠
    resolveAbs 256 (some [slash]) ([slash] ++ slash :: replicate 254 97) := by
  decide +kernel

end Resolve

/-- After a `vfs_chdir` that returns 0, `vfs_pwd` and all relative paths go by the resolved
directory exactly when it has at most 127 bytes and is not the root. In the root they do for
relative paths of at most 253 bytes. -/
theorem chdir_then_pwd (E : HandleEnv) (path : List UInt8) (s : Handles) (E' : HandleEnv)
    (s' : Handles) (h : s.vfsChdir E path = some (0, E', s')) :
    (ChdirAgrees E path E' ↔ (E.vfs.abs path).length ≤ 127 ∧ E.vfs.abs path ≠ [slash]) ∧
      (E.vfs.abs path = [slash] → vfsPwd E' 256 = [slash] ∧
        ∀ q, q.head? ≠ some slash → q.length ≤ 253 →
          E'.vfs.abs q = E'.vfs.abs ([slash] ++ slash :: q)) := by
  obtain ⟨-, rfl, -⟩ := vfsChdir_ok.mp h
  have hhead : (E.vfs.abs path).head? = some slash := head?_resolveAbs 256 E.cwd path
  generalize hdir : E.vfs.abs path = dir at hhead ⊢
  have hcut : (dir.take 127).head? = some slash := head?_take hhead
  have hpwd : vfsPwd { E with cwd := some (dir.take 127) } 256 = dir.take 127 := by
    rw [vfsPwd, workingDir_of_head hcut]
    exact take_of_length_le (by rw [length_take]; omega)
  have habs (q : List UInt8) : ({ E with cwd := some (dir.take 127) } : HandleEnv).vfs.abs q =
      resolveAbs 256 (some (dir.take 127)) q := rfl
  constructor
  · constructor
    · intro hagrees
      have hlen : dir.length ≤ 127 := by
        have hl := congrArg length (hpwd.symm.trans (hagrees.pwd.trans hdir))
        rw [length_take] at hl
        omega
      refine ⟨hlen, ?_⟩
      intro hroot
      have hfirst : (replicate 254 (97 : UInt8)).head? ≠ some slash := by
        rw [replicate_succ, head?_cons]
        decide
      have hrel := hagrees.relative (replicate 254 97) hfirst
      rw [habs, habs, hdir, take_of_length_le hlen, hroot] at hrel
      exact resolveAbs_relative_cut hrel
    · intro ⟨hlen, hroot⟩
      have hwhole := take_of_length_le hlen
      constructor
      · rw [hpwd, hwhole, hdir]
      · intro q hq
        rw [habs, habs, hdir, hwhole]
        exact resolveAbs_relative hhead hroot hlen hq
  · intro hroot
    subst hroot
    constructor
    · exact hpwd
    · intro q hq hlen
      exact resolveAbs_relative_root hq hlen

/-- A task in `"/"` next to one disk. -/
def taskInRoot : HandleEnv := { oneDisk with cwd := some [slash] }

/-- A kernel without a volume whose ramfs has the directory `"/a"`. -/
def oneDirBoot : Handles :=
  boot (fun _ => Ext2.Bytes.zero) (fun _ => true) Ext2.Bytes.zero (ramfsInit.mkdir [47, 97]).2

/-- The task goes to `"/a"`. -/
theorem chdir_then_pwd_dir : ∃ E' s', oneDirBoot.vfsChdir taskInRoot [97] = some (0, E', s') ∧
    vfsPwd E' 256 = [47, 97] := by
  have hok : (oneDirBoot.vfsChdir taskInRoot [97]).map (·.1) = some 0 := by decide +kernel
  obtain ⟨⟨ret, E', s'⟩, hchdir, rfl⟩ := map_eq_some_iff.mp hok
  have habs : taskInRoot.vfs.abs [97] = [47, 97] := by decide +kernel
  have hagrees := (chdir_then_pwd taskInRoot [97] oneDirBoot E' s' hchdir).1.mpr (by
    rw [habs]
    decide)
  exact ⟨E', s', hchdir, hagrees.pwd.trans habs⟩

/-- `"/aa…a"` with 31 times the letter, the given number of times. -/
def nestedDir (depth : ℕ) : List UInt8 :=
  (List.replicate depth (slash :: List.replicate 31 97)).flatten

/-- A kernel whose ramfs has four nested directories with names of 31 bytes. -/
def nestedBoot : Handles :=
  boot (fun _ => Ext2.Bytes.zero) (fun _ => true) Ext2.Bytes.zero
    ((((ramfsInit.mkdir (nestedDir 1)).2.mkdir (nestedDir 2)).2.mkdir (nestedDir 3)).2.mkdir
      (nestedDir 4)).2

/-- The path of the innermost directory has 128 bytes. `vfs_chdir` accepts it and stores all but
the last byte, so `vfs_pwd` gives a path that does not exist. -/
theorem nested_chdir_cut :
    (nestedDir 4).length = 128 ∧ taskInRoot.vfs.abs (nestedDir 4) = nestedDir 4 ∧
      ∃ E' s', nestedBoot.vfsChdir taskInRoot (nestedDir 4) = some (0, E', s') ∧
        vfsPwd E' 256 = (nestedDir 4).take 127 ∧
        (s'.vfsStat E' (vfsPwd E' 256)).map (·.1) = some none ∧
        ¬ChdirAgrees taskInRoot (nestedDir 4) E' := by
  have habs : taskInRoot.vfs.abs (nestedDir 4) = nestedDir 4 := by decide +kernel
  have hlen : (nestedDir 4).length = 128 := by decide +kernel
  have hok : (nestedBoot.vfsChdir taskInRoot (nestedDir 4)).map (fun r =>
      (r.1, vfsPwd r.2.1 256, (r.2.2.vfsStat r.2.1 (vfsPwd r.2.1 256)).map (·.1))) =
        some (0, (nestedDir 4).take 127, some none) := by
    decide +kernel
  obtain ⟨⟨ret, E', s'⟩, hchdir, hres⟩ := map_eq_some_iff.mp hok
  obtain ⟨hret, hres⟩ := Prod.mk.inj hres
  obtain ⟨hpwd, hstat⟩ := Prod.mk.inj hres
  subst hret
  refine ⟨hlen, habs, E', s', hchdir, hpwd, hstat, ?_⟩
  intro hagrees
  have hl := congrArg length (hpwd.symm.trans (hagrees.pwd.trans habs))
  rw [length_take, hlen] at hl
  exact absurd hl (by decide)

/-! ## `vfs_chdir` and `vfs_stat` -/

/-- The best mount does not have the path, and the first other mount that has it has a
directory there. -/
def HiddenDir (E : HandleEnv) (path : List UInt8) (s : Handles) : Prop :=
  ∃ i rest s₁ o s', s.matching E path = i :: rest ∧
    statDirOn (E.vfs.abs path) i s = some (none, s₁) ∧
    firstOf (statDirOn (E.vfs.abs path)) rest s₁ = some (some (o, true), s')

/-- For every mount table, all contents of the file systems and every path, `vfs_chdir` returns 0
if and only if `vfs_stat` finds a directory, exactly when no mount behind the best one has a
directory at the path that the best one does not have. -/
theorem chdir_iff_stat_dir (E : HandleEnv) (path : List UInt8) (s : Handles)
    (htask : E.cwd.isSome = true) :
    ((∃ E' s', s.vfsChdir E path = some (0, E', s')) ↔
        ∃ o s', s.vfsStatDir E path = some (some (o, true), s')) ↔ ¬HiddenDir E path s := by
  have hchdir : (∃ E' s', s.vfsChdir E path = some (0, E', s')) ↔ ∃ i rest o s',
      s.matching E path = i :: rest ∧
        statDirOn (E.vfs.abs path) i s = some (some (o, true), s') := by
    simp only [vfsChdir_ok, htask, true_and]
    constructor
    · intro ⟨E', s', _, i, rest, o, hl, hask⟩
      exact ⟨i, rest, o, s', hl, hask⟩
    · intro ⟨i, rest, o, s', hl, hask⟩
      exact ⟨_, s', rfl, i, rest, o, hl, hask⟩
  rw [hchdir, vfsStatDir, HiddenDir]
  cases hl : s.matching E path with
  | nil => simp [firstOf]
  | cons i rest =>
    rw [firstOf]
    cases hask : statDirOn (E.vfs.abs path) i s with
    | none => simp [hask]
    | some r =>
      obtain ⟨answer, s1⟩ := r
      cases answer with
      | none => simp [hask]
      | some a =>
        obtain ⟨⟨dev, ino⟩, isDir⟩ := a
        simp [hask]

/-- The ramfs with the directory `"/a"`, and the small volume mounted over it at `"/"`. -/
def overlayDir : Handles :=
  let s := boot (fun _ i => (smallVolume.lookup i).getD 0) (fun _ => true) Ext2.Bytes.zero
    (ramfsInit.mkdir [47, 97]).2
  (s.mount taskInRoot [104, 100, 97] [47]).getD s

/-- The ramfs and the volume over it both have `"/"`, and both calls find that of the volume. -/
theorem chdir_iff_stat_dir_overlay :
    (overlayDir.matching taskInRoot [47]).length = 2 ∧
    ((∃ E' s', overlayDir.vfsChdir taskInRoot [47] = some (0, E', s')) ↔
      ∃ o s', overlayDir.vfsStatDir taskInRoot [47] = some (some (o, true), s')) := by
  refine ⟨by decide +kernel, (chdir_iff_stat_dir taskInRoot [47] overlayDir rfl).mpr ?_⟩
  have hfirst : (overlayDir.matching taskInRoot [47]).head?.bind (fun i =>
      (statDirOn (taskInRoot.vfs.abs [47]) i overlayDir).map (·.1.isSome)) = some true := by
    decide +kernel
  intro ⟨i, rest, s1, o, s', hl, hask, _⟩
  rw [hl, head?_cons, bind_some, hask] at hfirst
  cases hfirst

/-- `vfs_stat` finds the directory `"/a"` in the ramfs, and `vfs_chdir` does not find it. -/
theorem overlay_hides_dir :
    (overlayDir.vfsStatDir taskInRoot [97]).map (·.1) = some (some ((rootSlot, 1), true)) ∧
      (overlayDir.vfsChdir taskInRoot [97]).map (·.1) = some (-ENOENT) ∧
      ¬((∃ E' s', overlayDir.vfsChdir taskInRoot [97] = some (0, E', s')) ↔
        ∃ o s', overlayDir.vfsStatDir taskInRoot [97] = some (some (o, true), s')) := by
  have hstat : (overlayDir.vfsStatDir taskInRoot [97]).map (·.1) =
      some (some ((rootSlot, 1), true)) := by decide +kernel
  have hchdir : (overlayDir.vfsChdir taskInRoot [97]).map (·.1) = some (-ENOENT) := by
    decide +kernel
  refine ⟨hstat, hchdir, ?_⟩
  intro hiff
  obtain ⟨⟨answer, s'⟩, hfound, hanswer⟩ := map_eq_some_iff.mp hstat
  subst hanswer
  obtain ⟨E', s1, hok⟩ := hiff.mpr ⟨_, s', hfound⟩
  rw [hok, map_some, some.injEq] at hchdir
  have hzero : (0 : Int) = -ENOENT := hchdir
  exact absurd hzero (by decide)

end Handles

end Crius.Fs
