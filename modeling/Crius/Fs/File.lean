import Mathlib.Logic.Function.Basic

/-!
# The file object pool

`kernel/fs/file.c`: a static pool of reference-counted file objects. A descriptor of a
task is the index of a pool object. The operation tables of the source are constants,
so an object names its table instead of holding function pointers.
-/
namespace Crius.Fs

def maxFiles : Nat := 2048

/-- A pointer into `file_pool`. -/
abbrev FileId := Fin maxFiles

/-- The first object of the pool. -/
abbrev firstFile : FileId := ⟨0, by decide⟩

/-- The second one. -/
abbrev secondFile : FileId := ⟨1, by decide⟩

/-- The `struct file_operations` tables of the source. -/
inductive FileOps where
  | ramfsFile
  | ramfsDev
  | ramfsDir
  | ext2File
  | ext2Dir
  deriving DecidableEq, Repr

namespace FileOps

/-- The table has a `readdir` callback; both of these are `vfs_dir_readdir`. -/
def readdir : FileOps → Bool
  | ramfsDir | ext2Dir => true
  | ramfsFile | ramfsDev | ext2File => false

/-- The table has a `close` callback; both of these are `vfs_dir_close`. -/
def close : FileOps → Bool
  | ramfsDir | ext2Dir => true
  | ramfsFile | ramfsDev | ext2File => false

end FileOps

structure File where
  used : Bool
  refcount : Int
  flags : Int
  offset : Nat
  ops : Option FileOps
  priv : Nat
  deriving DecidableEq, Repr

def File.empty : File := ⟨false, 0, 0, 0, none, 0⟩

abbrev FilePool := FileId → File

/-- The first unused object, cleared, with one reference. -/
def fileAlloc (pool : FilePool) : Option (FileId × FilePool) :=
  match (List.finRange maxFiles).find? (fun i => !(pool i).used) with
  | none => none
  | some i => some (i, Function.update pool i { File.empty with used := true, refcount := 1 })

theorem fileAlloc_unused {pool pool' : FilePool} {f : FileId}
    (h : fileAlloc pool = some (f, pool')) : (pool f).used = false := by
  unfold fileAlloc at h
  split at h
  · cases h
  · next i hi =>
    obtain ⟨rfl, -⟩ := Prod.mk.inj (Option.some.inj h)
    simpa using List.find?_some hi

def fileGet (f : FileId) (pool : FilePool) : FilePool :=
  Function.update pool f { pool f with refcount := (pool f).refcount + 1 }

/-- `f->ops && f->ops->close` -/
def File.hasClose (f : File) : Bool :=
  match f.ops with
  | some ops => ops.close
  | none => false

/-- `vfs_dir_close`: the handle it passes to `kfree`, when there is one. -/
def vfsDirClose (f : File) : Option Nat := if f.priv = 0 then none else some f.priv

/-- What one `file_put` did with the object it was given. -/
inductive PutEffect where
  /-- the object is still referenced -/
  | kept
  /-- the last reference went away: the close callback ran if the table has one, and
  freed the given handle -/
  | released (handle : Option Nat)
  deriving DecidableEq, Repr

def filePut (f : FileId) (pool : FilePool) : PutEffect × FilePool :=
  let count := (pool f).refcount - 1
  if count ≤ 0 then
    (.released (if (pool f).hasClose then vfsDirClose (pool f) else none),
      Function.update pool f
        { pool f with used := false, refcount := 0, offset := 0, ops := none, priv := 0 })
  else
    (.kept, Function.update pool f { pool f with refcount := count })

end Crius.Fs
