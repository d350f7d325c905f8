import Crius.Abi
import Crius.Process.Task

/-!
# Process lifecycle

`process/process.c`: creation, cleanup, reparenting, exit, kill, wait and sleep. Each
function is the C function over an explicit kernel state. The two loops that follow
sibling links carry a step budget of `maxTasks + 1`: a result of `none` means that the
loop has not left the list by then, which for a table of `maxTasks` tasks is a cycle.

`task_exit_code` and the blocking branch of `task_wait` end in an idle loop with
interrupts enabled; the state they return is the one in which that loop runs.
-/
namespace Crius.Process

open Abi Fs Option Prod

variable {σ : Type} (S : Services σ)

def userStackTop : Nat := 0x80000000
def userStackPages : Nat := 32

/-- `PAGE_PRESENT | PAGE_WRITABLE | PAGE_USER | PAGE_NX` -/
def userStackFlags : BitVec 64 := 0x8000000000000007#64

/-- The loop that allocates and maps the user stack; a page that cannot be mapped is
given back at once, the pages already mapped are left to the caller's rollback. -/
def mapUserStack (cr3 : BitVec 64) : List Nat → σ → Bool × σ
  | [], e => (true, e)
  | p :: ps, e =>
    let (pagePhys, e) := S.pmmAllocPage e
    if pagePhys = 0 then (false, e)
    else
      let (ok, e) := S.vmmMapPage cr3 (BitVec.ofNat 64 (userStackTop - (p + 1) * 0x1000)) pagePhys
        userStackFlags e
      if ok then mapUserStack cr3 ps e else (false, S.pmmFreePage pagePhys e)

/-- The size of the register frame that a task is resumed from. -/
def frameSize : Nat := 176

/-- What `init_task_stack` and `task_fork` acquire for a slot: a kernel stack, a page
table with the kernel half, and the user pages that `fill` puts into it. Every failure
gives back what was acquired. (The rollback of `task_fork` also writes `TASK_UNUSED` into
the slot, which still is unused then.) -/
def acquireSpace (fill : BitVec 64 → σ → Bool × σ) (k : Kernel σ) (slot : Pid) : Bool × Kernel σ :=
  let (stack, k) := k.ask (S.kmalloc taskStackSize)
  let k := k.modify slot fun t => { t with stack := stack }
  if stack = 0 then (false, k)
  else
    let k := k.modify slot fun t => { t with kernelStack := stack }
    let (cr3, k) := k.ask S.vmmCreatePml4
    let k := k.modify slot fun t => { t with cr3 := cr3 }
    if cr3 = 0 then
      (false, (k.call (S.kfree stack)).modify slot fun t => { t with stack := 0, kernelStack := 0 })
    else
      let (ok, k) := (k.call (S.vmmMapKernel k.cr3 cr3)).ask (fill cr3)
      if ok then (true, k)
      else
        (false, (k.call fun e =>
            S.kfree stack (S.pmmFreePage cr3 (S.vmmFreeUserPages cr3 e))).modify slot fun t =>
          { t with cr3 := 0, stack := 0, kernelStack := 0 })

/-- The stack pointer of a task that has not run yet. -/
def initialRsp (stack : Nat) : Nat := stack + taskStackSize - frameSize

/-- The task fields that `init_task_stack` sets. -/
def freshTask (currentTask : Option Pid) (entry arg : Nat) (t : Task) : Task :=
  { t with
    userRsp := userStackTop
    rsp := initialRsp t.stack
    rip := entry
    ticks := 0
    priority := taskDefaultPriority
    sleepUntil := 0
    arg := arg
    state := .ready
    parentPid := currentTask
    firstChild := none
    exitCode := 0
    waitForPid := -1
    nextSibling := none
    pendingFreeKstack := 0
    cwd := [47]
    fds := fun _ => none }

def initTaskStack (k : Kernel σ) (slot : Pid) (name : List UInt8) (entry arg : Nat) :
    Bool × Kernel σ :=
  let k := k.modify slot fun t => { t with name := copyName taskNameLen name }
  let (ok, k) := acquireSpace S (fun cr3 => mapUserStack S cr3 (List.range userStackPages)) k slot
  if ok then (true, k.modify slot (freshTask k.currentTask entry arg)) else (false, k)

/-- `task_create_args`; `task_create` is the case of a null argument. -/
def taskCreateArgs (k : Kernel σ) (name : List UInt8) (entry arg : Nat) : Option Pid × Kernel σ :=
  match allocTask k.tasks with
  | none => (none, k)
  | some slot =>
    let (ok, k) := initTaskStack S k slot name entry arg
    if !ok then (none, k)
    else if k.currentTask = none then
      (some slot, (k.setCurrent slot).modify slot fun t => { t with state := .running })
    else (some slot, k)

def taskCreate (k : Kernel σ) (name : List UInt8) (entry : Nat) : Option Pid × Kernel σ :=
  taskCreateArgs S k name entry 0

/-- The task fields that `task_create_current` sets. -/
def idleTask (cr3 : BitVec 64) (t : Task) : Task :=
  { t with
    kernelStack := t.stack
    userRsp := 0
    rsp := 0
    rip := 0
    cr3 := cr3
    ticks := 0
    priority := taskDefaultPriority
    sleepUntil := 0
    arg := 0
    state := .running
    parentPid := none
    firstChild := none
    exitCode := 0
    waitForPid := -1
    nextSibling := none
    pendingFreeKstack := 0
    cwd := [47]
    fds := fun _ => none }

/-- `task_create_current`: the running context becomes the idle task. -/
def taskCreateCurrent (k : Kernel σ) (name : List UInt8) : Bool × Kernel σ :=
  let k := k.modify idle fun t => { t with name := copyName taskNameLen name }
  let (stack, k) := k.ask (S.kmalloc taskStackSize)
  let k := k.modify idle fun t => { t with stack := stack }
  if stack = 0 then (false, k) else (true, (k.modify idle (idleTask k.cr3)).setCurrent idle)

/-- One round of the loop in `task_release_fds`. -/
def releaseFd (i : Pid) (k : Kernel σ) (fd : Fd) : Kernel σ :=
  match (k.tasks i).fds fd with
  | none => k
  | some f =>
    (k.call (S.filePut f)).modify i fun t => { t with fds := Function.update t.fds fd none }

def taskReleaseFds (k : Kernel σ) (i : Pid) : Kernel σ :=
  (List.finRange maxFds).foldl (releaseFd S i) k

/-- The deferred free of the kernel stack that an exec replaced, as `task_cleanup`,
`task_exit_code` and `task_kill` do it. -/
def freePendingKstack (k : Kernel σ) (i : Pid) : Kernel σ :=
  if (k.tasks i).pendingFreeKstack = 0 then k
  else (k.call (S.kfree (k.tasks i).pendingFreeKstack)).modify i fun t =>
    { t with pendingFreeKstack := 0 }

/-- The address space is freed unless it is the active one. -/
def cleanupAddressSpace (k : Kernel σ) (i : Pid) : Kernel σ :=
  if (k.tasks i).cr3 = 0 then k
  else
    let k := if (k.tasks i).cr3 = k.cr3 then k
      else k.call fun e =>
        S.pmmFreePage (k.tasks i).cr3 (S.vmmFreeUserPages (k.tasks i).cr3 e)
    k.modify i fun t => { t with cr3 := 0 }

def freeKernelStack (k : Kernel σ) (i : Pid) : Kernel σ :=
  if (k.tasks i).kernelStack = 0 then k
  else (k.call (S.kfree (k.tasks i).kernelStack)).modify i fun t => { t with kernelStack := 0 }

/-- By now `kernel_stack` has been cleared, so the comparison with it never keeps the
second free from being one of the same pointer. -/
def freeStack (k : Kernel σ) (i : Pid) : Kernel σ :=
  (if (k.tasks i).stack ≠ 0 ∧ (k.tasks i).stack ≠ (k.tasks i).kernelStack then
      k.call (S.kfree (k.tasks i).stack)
    else k).modify i fun t => { t with stack := 0 }

def taskCleanup (k : Kernel σ) (i : Pid) : Kernel σ :=
  taskReleaseFds S
    (freePendingKstack S (freeStack S (freeKernelStack S (cleanupAddressSpace S k i) i) i) i) i

/-- Where the children of a dying task go: to init, or to idle when init is gone or is
itself the dying task. -/
def newParent (tasks : Pid → Task) (dying : Pid) : Pid :=
  let np := if (tasks init).state = .unused ∨ (tasks init).state = .zombie then idle else init
  if np = dying then idle else np

def setFirstChild (tasks : Pid → Task) (i : Pid) (child : Option Pid) : Pid → Task :=
  Function.update tasks i { tasks i with firstChild := child }

def setNextSibling (tasks : Pid → Task) (i : Pid) (next : Option Pid) : Pid → Task :=
  Function.update tasks i { tasks i with nextSibling := next }

/-- One round of the loop of `task_reparent_children`. -/
def handOver (np : Pid) (tasks : Pid → Task) (child : Pid) : Pid → Task :=
  let tasks := Function.update tasks child
    { tasks child with parentPid := some np, nextSibling := (tasks np).firstChild }
  setFirstChild tasks np (some child)

/-- The `while` loop of `task_reparent_children`. -/
def reparentLoop (np : Pid) : Nat → (Pid → Task) → Option Pid → Option (Pid → Task)
  | _, tasks, none => some tasks
  | 0, _, some _ => none
  | n + 1, tasks, some child =>
    let next := (tasks child).nextSibling
    reparentLoop np n (handOver np tasks child) next

def taskReparentChildren (tasks : Pid → Task) (dying : Pid) : Option (Pid → Task) :=
  (reparentLoop (newParent tasks dying) (maxTasks + 1) tasks (tasks dying).firstChild).map
    fun tasks => setFirstChild tasks dying none

/-- The search for the predecessor of a child in `task_remove_child`. The inner option
is the C variable `prev`. -/
def findPrev (tasks : Pid → Task) (child : Pid) : Nat → Option Pid → Option (Option Pid)
  | _, none => some none
  | 0, some _ => none
  | n + 1, some prev =>
    if (tasks prev).nextSibling = some child then some (some prev)
    else findPrev tasks child n (tasks prev).nextSibling

/-- The predecessor of the child, if it has one, skips it. -/
def skipChild (tasks : Pid → Task) (child : Pid) : Option Pid → Pid → Task
  | none => tasks
  | some prev => setNextSibling tasks prev (tasks child).nextSibling

def taskRemoveChild (tasks : Pid → Task) (parent child : Pid) : Option (Pid → Task) :=
  (if (tasks parent).firstChild = some child then
      some (setFirstChild tasks parent (tasks child).nextSibling)
    else
      (findPrev tasks child (maxTasks + 1) (tasks parent).firstChild).map (skipChild tasks child)).map
    fun tasks => setNextSibling tasks child none

/-- The steps that `task_exit_code` and `task_kill` share: the task gives up its children,
descriptors and pending stack and becomes a zombie. -/
def die (k : Kernel σ) (i : Pid) (code : Int) : Option (Kernel σ) :=
  (taskReparentChildren k.tasks i).map fun tasks =>
    (freePendingKstack S (taskReleaseFds S (k.setTasks tasks) i) i).modify i fun t =>
      { t with state := .zombie, exitCode := code }

def taskExitCode (k : Kernel σ) (code : Int) : Option (Kernel σ) :=
  match k.currentTask with
  | none => some { k with needReschedule := true }
  | some dying => (die S k dying code).map fun k => { k with needReschedule := true }

def taskKill (k : Kernel σ) (id : Int) : Option (Int × Kernel σ) :=
  if h : 0 ≤ id ∧ id < maxTasks then
    let i : Pid := ⟨id.toNat, by omega⟩
    if k.currentTask = some i then some (-EINVAL, k)
    else if i = idle then some (-EPERM, k)
    else if (k.tasks i).state = .unused ∨ (k.tasks i).state = .zombie then some (-ESRCH, k)
    else (die S k i (-SIGKILL)).map fun k => (0, k)
  else some (-ESRCH, k)

/-- What one pass through the loop of `task_wait` comes to. -/
inductive WaitOutcome where
  | reaped (child : Pid) (status : Int)
  | noChild
  | again
  | blocks
  deriving DecidableEq, Repr

/-- The `pid` argument of a wait selects the child. -/
def waitMatches (pid : Int) (i : Pid) : Prop := pid = -1 ∨ (i.val : Int) = pid

instance (pid : Int) (i : Pid) : Decidable (waitMatches pid i) :=
  inferInstanceAs (Decidable (_ ∨ _))

/-- The status word of a reaped child. In 32 bits `INT_MIN` is its own negation. -/
def waitStatus (code : Int) : Int :=
  if code < 0 then (-code).bmod (2 ^ 32) else code % 256 * 256

/-- The reaping branch of `task_wait`. -/
def reap (k : Kernel σ) (parent found : Pid) : Option (Kernel σ) :=
  (taskRemoveChild k.tasks parent found).map fun tasks =>
    (taskCleanup S (k.setTasks tasks) found).modify found fun t =>
      { t with
        state := .unused
        exitCode := 0
        parentPid := none
        waitForPid := -1
        nextSibling := none
        firstChild := none
        pendingFreeKstack := 0 }

/-- One pass through the loop of `task_wait`. A caller that blocks is resumed inside the
loop and makes another pass. -/
def taskWait (k : Kernel σ) (pid options : Int) : Option (WaitOutcome × Kernel σ) :=
  match k.currentTask with
  | none => some (.noChild, k)
  | some parent =>
    match (List.finRange maxTasks).find? (fun i => (k.tasks i).state = .zombie ∧
        (k.tasks i).parentPid = some parent ∧ waitMatches pid i) with
    | some found =>
      (reap S k parent found).map fun k' =>
        (.reaped found (waitStatus (k.tasks found).exitCode), k')
    | none =>
      if (List.finRange maxTasks).any (fun i => (k.tasks i).state ≠ .unused ∧
          (k.tasks i).state ≠ .zombie ∧ (k.tasks i).parentPid = some parent ∧
          waitMatches pid i) then
        if wnohang options then some (.again, k)
        else some (.blocks, { k with needReschedule := true }.modify parent fun t =>
          { t with state := .blocked, waitForPid := pid })
      else some (.noChild, k)

def taskSleep (k : Kernel σ) (ms : Nat) : Kernel σ :=
  match k.currentTask with
  | none => k
  | some i =>
    { k with needReschedule := true }.modify i fun t =>
      { t with sleepUntil := (k.schedulerTicksTotal + ms) % 2 ^ 64, state := .sleeping }

def taskSetPriority (k : Kernel σ) (id priority : Int) : Kernel σ :=
  if h : 0 ≤ id ∧ id < maxTasks then
    k.modify ⟨id.toNat, by omega⟩ fun t =>
      { t with priority := min (max priority 0) taskMaxPriority }
  else k

end Crius.Process
