import Crius.Lib.Run
import Crius.Process.Exec
import Crius.Process.Scheduler

/-!
# The process system

The operations that change the task table, as one step function. System calls are made
by the current task while it runs. The idle task makes none: after boot it executes the
`hlt` loop at the end of `kmain`. Ticks and reschedules come from interrupts and can
arrive in any state; a user fault ends the current task by `task_exit_code`, like the
exit call.

A task that blocks in `task_wait` is resumed inside the loop of that function, so its
next pass is one more `wait` step of the same task.
-/
namespace Crius.Process

variable {σ : Type} {k : Kernel σ} {i : Pid} {f : Task → Task}

inductive Op where
  | fork (frameRip : Nat)
  | exec (path : List UInt8) (argv : List (List UInt8))
  | exit (code : Int)
  | kill (id : Int)
  | wait (pid options : Int)
  | sleep (ms : Nat)
  | yield
  | setPriority (id priority : Int)
  | tick
  | reschedule (rsp : Nat)
  | create (name : List UInt8) (entry : Nat)

/-- The task that can make a system call now. -/
def Kernel.caller (k : Kernel σ) : Option Pid :=
  match k.currentTask with
  | none => none
  | some i => if i ≠ idle ∧ (k.tasks i).state = .running then some i else none

/-- The state after a system call of the running task. -/
def syscall (S : Services σ) (k : Kernel σ) : Op → Option (Kernel σ)
  | .fork frameRip => some (taskFork S k frameRip).2
  | .exec path argv => some (doExec S k path argv).2
  | .exit code => taskExitCode S k code
  | .kill id => (taskKill S k id).map (·.2)
  | .wait pid options => (taskWait S k pid options).map (·.2)
  | .sleep ms => some (taskSleep k ms)
  | .yield => some (schedulerYield k)
  | .setPriority id priority => some (taskSetPriority k id priority)
  | .tick | .reschedule _ | .create _ _ => none

def step (S : Services σ) (k : Kernel σ) : Op → Option (Kernel σ)
  | .tick => some (schedulerTick k)
  | .reschedule rsp => some (reschedule S k rsp)
  | .create name entry => some (taskCreate S k name entry).2
  | op => if k.caller.isSome then syscall S k op else none

/-- The step can be taken: interrupts and boot code always, a call only by a running task. -/
def Enabled (k : Kernel σ) : Op → Prop
  | .tick | .reschedule _ | .create _ _ => True
  | _ => k.caller.isSome

/-- The part of `kmain` that makes the first two tasks; the names are `idle` and `init`. -/
def boot (S : Services σ) (k : Kernel σ) (initEntry : Nat) : Option Pid × Kernel σ :=
  taskCreateArgs S (taskCreateCurrent S k [105, 100, 108, 101]).2 [105, 110, 105, 116] initEntry 0

theorem caller_eq_some (h : k.caller = some i) :
    k.currentTask = some i ∧ i ≠ idle ∧ (k.tasks i).state = .running := by
  unfold Kernel.caller at h
  split at h
  · cases h
  · split at h
    · obtain rfl := Option.some.inj h
      exact ⟨by assumption, by assumption⟩
    · cases h

/-! ## A small environment

The kernel as its zeroed statics, over services that hand out fresh addresses and always
succeed. -/

def Task.zeroed : Task where
  state := .unused
  rsp := 0
  rip := 0
  ticks := 0
  stack := 0
  kernelStack := 0
  userRsp := 0
  priority := 0
  sleepUntil := 0
  arg := 0
  name := []
  cr3 := 0
  parentPid := some idle
  firstChild := some idle
  exitCode := 0
  waitForPid := 0
  nextSibling := some idle
  pendingFreeKstack := 0
  cwd := []
  fds := fun _ => none

def Kernel.zeroed (env : σ) : Kernel σ where
  tasks := fun _ => .zeroed
  currentTask := some idle
  timerTicks := 0
  schedInitialized := false
  needReschedule := false
  savedRsp := 0
  syscallSavedRsp := 0
  schedulerTicksTotal := 0
  schedStackTop := 0
  cr3 := 0
  rsp0 := 0
  env := env

/-- Services whose state is the next free address. -/
def bumpServices : Services Nat where
  kmalloc size next := (next, next + size)
  kfree _ next := next
  pmmAllocPage next := (BitVec.ofNat 64 next, next + 4096)
  pmmFreePage _ next := next
  vmmCreatePml4 next := (BitVec.ofNat 64 next, next + 4096)
  vmmMapKernel _ _ next := next
  vmmMapPage _ _ _ _ next := (true, next)
  vmmCopyUserspace _ _ next := (true, next)
  vmmFreeUserPages _ next := next
  fileGet _ next := next
  filePut _ next := next
  vfsStat _ next := (some 0, next)
  vfsRead _ _ next := (some [], next)
  elfLoadToTask _ _ next := (0x400000, next)
  fillArgPage _ _ next := next

def bumpBoot : Kernel Nat :=
  (boot bumpServices (schedulerInit bumpServices (Kernel.zeroed 4096)) 0x400000).2

/-! ## The scheduling fields

The fields that the scheduler, the child lists and `task_wait` read. Everything else in
a task is storage of the services. -/

structure Links where
  state : TaskState
  parentPid : Option Pid
  firstChild : Option Pid
  nextSibling : Option Pid
  waitForPid : Int
  sleepUntil : Nat

def Task.links (t : Task) : Links :=
  ⟨t.state, t.parentPid, t.firstChild, t.nextSibling, t.waitForPid, t.sleepUntil⟩

section

variable (t : Task)

@[simp] theorem links_state : t.links.state = t.state := rfl

end

/-- The scheduling fields of the whole table. -/
def Kernel.links (k : Kernel σ) : Pid → Links := fun i => (k.tasks i).links

/-- A change of one task that leaves its scheduling fields alone. -/
theorem links_modify (h : (f (k.tasks i)).links = (k.tasks i).links) :
    (k.modify i f).links = k.links := by
  funext j
  by_cases hj : j = i
  · subst hj
    simpa [Kernel.links] using h
  · simp [Kernel.links, hj]

@[simp] theorem links_setCurrent (k : Kernel σ) (i : Pid) : (k.setCurrent i).links = k.links := rfl

/-- The kernel states that differ only in storage of the services. -/
structure SameSched (k k' : Kernel σ) : Prop where
  links : k'.links = k.links
  currentTask : k'.currentTask = k.currentTask
  needReschedule : k'.needReschedule = k.needReschedule

namespace SameSched

theorem refl (k : Kernel σ) : SameSched k k := ⟨rfl, rfl, rfl⟩

theorem trans {k1 k2 k3 : Kernel σ} (h : SameSched k1 k2) (h' : SameSched k2 k3) :
    SameSched k1 k3 :=
  ⟨h'.links.trans h.links, h'.currentTask.trans h.currentTask,
    h'.needReschedule.trans h.needReschedule⟩

theorem call (k : Kernel σ) (f : σ → σ) : SameSched k (k.call f) := ⟨rfl, rfl, rfl⟩

variable {k' : Kernel σ}

theorem modify (h : (f (k.tasks i)).links = (k.tasks i).links) : SameSched k (k.modify i f) :=
  ⟨links_modify h, rfl, rfl⟩

theorem state (h : SameSched k k') (i : Pid) : (k'.tasks i).state = (k.tasks i).state :=
  congrArg Links.state (congrFun h.links i)

end SameSched

end Crius.Process
