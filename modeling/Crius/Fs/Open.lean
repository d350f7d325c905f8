import Crius.Abi
import Crius.Process.Task

/-!
# Opening files

`vfs_open` of `fs/vfs/vfs.c` over the file pool. What a filesystem does when it is asked
to open a path is a parameter: it changes the state behind the pool, says whether it
succeeded and leaves an operation table and a private word in the file object. The
mounts that match the path are the list of these parameters, in the order in which
`find_mounts` returns them.

`Files` adds the pool, and a log of when objects come and go, to a service state; under
`withFiles` the file calls of the process code act on the pool and all others on the
state behind it.
-/
namespace Crius.Fs

open Abi Process

variable {σ : Type}

/-- An object leaves the pool, or goes back to it; its close callback runs at that
moment, if its table has one. -/
inductive FileEvent where
  | opened (f : FileId)
  | closed (f : FileId)
  deriving DecidableEq, Repr

structure Files (σ : Type) where
  pool : FilePool
  log : List FileEvent
  rest : σ

/-- `file_put`, with the `kfree` of the close callback. -/
def Files.put (S : Services σ) (f : FileId) (s : Files σ) : Files σ :=
  match filePut f s.pool with
  | (.kept, pool) => { s with pool := pool }
  | (.released handle, pool) =>
    { pool := pool
      log := s.log ++ [.closed f]
      rest := match handle with
        | none => s.rest
        | some h => S.kfree h s.rest }

def Files.get (f : FileId) (s : Files σ) : Files σ := { s with pool := fileGet f s.pool }

/-- A call that does not reach the pool. -/
def Files.behind {α : Type} (g : σ → α × σ) (s : Files σ) : α × Files σ :=
  ((g s.rest).1, { s with rest := (g s.rest).2 })

def withFiles (S : Services σ) : Services (Files σ) where
  kmalloc size := Files.behind (S.kmalloc size)
  kfree ptr s := { s with rest := S.kfree ptr s.rest }
  pmmAllocPage := Files.behind S.pmmAllocPage
  pmmFreePage phys s := { s with rest := S.pmmFreePage phys s.rest }
  vmmCreatePml4 := Files.behind S.vmmCreatePml4
  vmmMapKernel active pml4 s := { s with rest := S.vmmMapKernel active pml4 s.rest }
  vmmMapPage pml4 virt phys flags := Files.behind (S.vmmMapPage pml4 virt phys flags)
  vmmCopyUserspace dst src := Files.behind (S.vmmCopyUserspace dst src)
  vmmFreeUserPages pml4 s := { s with rest := S.vmmFreeUserPages pml4 s.rest }
  fileGet f := Files.get f
  filePut f := Files.put S f
  vfsStat path := Files.behind (S.vfsStat path)
  vfsRead path size := Files.behind (S.vfsRead path size)
  elfLoadToTask pml4 data := Files.behind (S.elfLoadToTask pml4 data)
  fillArgPage phys argv s := { s with rest := S.fillArgPage phys argv s.rest }

/-- What the `open` of a filesystem returned, and the fields it left in the object. -/
structure OpenResult where
  ok : Bool
  ops : Option FileOps
  priv : Nat

/-- The `open` of one mounted filesystem on the path of the call. -/
abbrev MountOpen (σ : Type) := σ → OpenResult × σ

/-- `sizeof(struct dir_handle)` -/
def dirHandleSize : Nat := 272

def Files.setObject (f : FileId) (g : File → File) (s : Files σ) : Files σ :=
  { s with pool := Function.update s.pool f (g (s.pool f)) }

/-- An opened directory gets a handle; without memory for it the open fails. -/
def finishOpen (S : Services σ) (f : FileId) (s : Files σ) : Option FileId × Files σ :=
  match (s.pool f).ops with
  | some ops =>
    if ops.readdir then
      let (dh, s) := s.behind (S.kmalloc dirHandleSize)
      if dh = 0 then (none, s.put S f)
      else (some f, s.setObject f fun o => { o with priv := dh })
    else (some f, s)
  | none => (some f, s)

/-- Ask one mount. The result is what `vfs_open` returns, if it returns here. -/
def tryMount (S : Services σ) (f : FileId) (m : MountOpen σ) (s : Files σ) :
    Option (Option FileId) × Files σ :=
  let (r, s) := s.behind m
  let s := s.setObject f fun o => { o with ops := r.ops, priv := r.priv }
  if r.ok then
    let (res, s) := finishOpen S f s
    (some res, s)
  else (none, s)

/-- The loop over the matching mounts; the object is reset after each failure. -/
def tryMounts (S : Services σ) (f : FileId) : List (MountOpen σ) → Files σ →
    Option (Option FileId) × Files σ
  | [], s => (none, s)
  | m :: ms, s =>
    match tryMount S f m s with
    | (some res, s) => (some res, s)
    | (none, s) => tryMounts S f ms (s.setObject f fun o => { o with ops := none, priv := 0 })

/-- With `O_CREAT` the first mount is asked once more. -/
def retryMount (S : Services σ) (f : FileId) (flags : Int) (m : MountOpen σ) (s : Files σ) :
    Option FileId × Files σ :=
  if oCreat flags then
    match tryMount S f m s with
    | (some res, s) => (res, s)
    | (none, s) => (none, s.put S f)
  else (none, s.put S f)

def vfsOpen (S : Services σ) (flags : Int) (mounts : List (MountOpen σ)) (s : Files σ) :
    Option FileId × Files σ :=
  match mounts with
  | [] => (none, s)
  | m :: ms =>
    match fileAlloc s.pool with
    | none => (none, s)
    | some (f, pool) =>
      let s : Files σ := { s with pool := pool, log := s.log ++ [.opened f] }
      match tryMounts S f (m :: ms) (s.setObject f fun o => { o with flags := flags }) with
      | (some res, s) => (res, s)
      | (none, s) => retryMount S f flags m s

end Crius.Fs
