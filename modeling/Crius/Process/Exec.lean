import Crius.Process.Fork

/-!
# Exec

`process/exec.c`. A failed exec leaves through one of the rollback paths of
`loadImage`, before the task is touched. A successful one replaces the address space
and the kernel stack; the old kernel stack, on which the syscall is still running, is
left in `pending_free_kstack`.
-/
namespace Crius.Process

open Abi

variable {σ : Type} (S : Services σ)

def argPageBase : Nat := 0x70000000
def maxElfSize : Nat := 16 * 1024 * 1024

/-- The rollback of an address space under construction. -/
def discardSpace (cr3 : BitVec 64) (e : σ) : σ := S.pmmFreePage cr3 (S.vmmFreeUserPages cr3 e)

/-- Steps 1 and 2 of `do_exec`: the file in a kernel buffer. The result is the buffer
and its contents. -/
def readImage (path : List UInt8) (e : σ) : Option (Nat × List UInt8) × σ :=
  match S.vfsStat path e with
  | (none, e) => (none, e)
  | (some elfSize, e) =>
    if elfSize > maxElfSize then (none, e)
    else
      let (elfBuf, e) := S.kmalloc elfSize e
      if elfBuf = 0 then (none, e)
      else
        match S.vfsRead path elfSize e with
        | (some data, e) =>
          if data.length = elfSize then (some (elfBuf, data), e) else (none, S.kfree elfBuf e)
        | (none, e) => (none, S.kfree elfBuf e)

/-- Step 4: the argument page. -/
def mapArgPage (cr3 : BitVec 64) (argv : List (List UInt8)) (e : σ) : Bool × σ :=
  let (argPhys, e) := S.pmmAllocPage e
  if argPhys = 0 then (false, e)
  else
    let (ok, e) := S.vmmMapPage cr3 (BitVec.ofNat 64 argPageBase) argPhys userStackFlags
      (S.fillArgPage argPhys (argv.take MAX_ARGS) e)
    if ok then (true, e) else (false, S.pmmFreePage argPhys e)

/-- The image is loaded and the buffer it was read into is given back. -/
def loadSegments (active cr3 : BitVec 64) (elfBuf : Nat) (data : List UInt8) (e : σ) : Nat × σ :=
  let (entry, e) := S.elfLoadToTask cr3 data (S.vmmMapKernel active cr3 e)
  (entry, S.kfree elfBuf e)

/-- Steps 3 to 5: the new address space with the program, its arguments and its stack.
The result is the page table and the entry point. -/
def buildSpace (active : BitVec 64) (elfBuf : Nat) (data : List UInt8) (argv : List (List UInt8))
    (e : σ) : Option (BitVec 64 × Nat) × σ :=
  let (newCr3, e) := S.vmmCreatePml4 e
  if newCr3 = 0 then (none, S.kfree elfBuf e)
  else
    let (entry, e) := loadSegments S active newCr3 elfBuf data e
    if entry = 0 then (none, discardSpace S newCr3 e)
    else
      let (ok, e) := mapArgPage S newCr3 argv e
      if !ok then (none, discardSpace S newCr3 e)
      else
        let (ok, e) := mapUserStack S newCr3 (List.range userStackPages) e
        if !ok then (none, discardSpace S newCr3 e) else (some (newCr3, entry), e)

/-- Steps 1 to 7: everything `do_exec` acquires before it changes the task. The result
is the new page table, the entry point and the new kernel stack. -/
def loadImage (k : Kernel σ) (path : List UInt8) (argv : List (List UInt8)) :
    Option (BitVec 64 × Nat × Nat) × σ :=
  match readImage S path k.env with
  | (none, e) => (none, e)
  | (some (elfBuf, data), e) =>
    match buildSpace S k.cr3 elfBuf data argv e with
    | (none, e) => (none, e)
    | (some (newCr3, entry), e) =>
      if k.currentTask = none then (none, discardSpace S newCr3 e)
      else
        let (newKstack, e) := S.kmalloc taskStackSize e
        if newKstack = 0 then (none, discardSpace S newCr3 e)
        else (some (newCr3, entry, newKstack), e)

/-- The last component of the path becomes the name of the task. -/
def baseName (path : List UInt8) : List UInt8 :=
  ((copyName 128 path).reverse.takeWhile (· ≠ 47)).reverse

/-- Steps 8 to 15: the task takes over the new image. -/
def commitImage (k : Kernel σ) (pid : Pid) (path : List UInt8) (newCr3 : BitVec 64)
    (entry newKstack : Nat) : Kernel σ :=
  let oldCr3 := (k.tasks pid).cr3
  let oldKstack := (k.tasks pid).kernelStack
  let k := k.modify pid fun t =>
    { t with
      kernelStack := newKstack
      stack := newKstack
      cr3 := newCr3
      rip := entry
      userRsp := userStackTop
      name := copyName taskNameLen (baseName path)
      rsp := initialRsp newKstack }
  let k := (k.vmmSwitchPml4 newCr3).call (discardSpace S oldCr3)
  let k := k.tssSetRsp0 (newKstack + taskStackSize)
  (freePendingKstack S k pid).modify pid fun t => { t with pendingFreeKstack := oldKstack }

/-- `do_exec`; the first component is the success of the call. -/
def doExec (k : Kernel σ) (path : List UInt8) (argv : List (List UInt8)) : Bool × Kernel σ :=
  match loadImage S k path argv, k.currentTask with
  | (some (newCr3, entry, newKstack), e), some pid =>
    (true, commitImage S { k with env := e } pid path newCr3 entry newKstack)
  | (_, e), _ => (false, { k with env := e })

end Crius.Process
