import Crius.Process.Fork

/-!
# Scheduler

`scheduler/scheduler.c`, with the part of `arch/isr.asm` that surrounds `do_schedule`:
both entry paths store the interrupted stack pointer in `saved_rsp`, run `do_schedule`
on the scheduler's own stack, continue on the frame that `saved_rsp` then names and
clear `need_reschedule`.
-/
namespace Crius.Process

variable {σ : Type} (S : Services σ)

/-- `scheduler_init` -/
def schedulerInit (k : Kernel σ) : Kernel σ :=
  let (sstack, e) := S.kmalloc 16384 k.env
  { k with
    tasks := fun i => { k.tasks i with
      state := .unused
      priority := taskDefaultPriority
      sleepUntil := 0
      arg := 0
      parentPid := none
      firstChild := none
      exitCode := 0
      waitForPid := -1
      nextSibling := none
      pendingFreeKstack := 0 }
    currentTask := none
    timerTicks := 0
    schedStackTop := if sstack = 0 then k.schedStackTop else sstack + 16384
    schedInitialized := true
    env := e }

/-- A sleeper whose time has come is ready. -/
def wakeSleeper (now : Nat) (t : Task) : Task :=
  if t.state = .sleeping ∧ t.sleepUntil ≤ now then { t with state := .ready, sleepUntil := 0 }
  else t

/-- The inner loop of the wake-up pass: some child that task `i` waits for is a zombie. -/
def zombieChild (tasks : Pid → Task) (i : Pid) (wpid : Int) : Bool :=
  (List.finRange maxTasks).any fun j => (tasks j).state = .zombie ∧
    (tasks j).parentPid = some i ∧ waitMatches wpid j

/-- One round of the wake-up loop of `do_schedule`. -/
def wakeTask (now : Nat) (tasks : Pid → Task) (i : Pid) : Pid → Task :=
  let tasks := Function.update tasks i (wakeSleeper now (tasks i))
  if (tasks i).state = .blocked ∧ zombieChild tasks i (tasks i).waitForPid then
    Function.update tasks i { tasks i with state := .ready, waitForPid := -1 }
  else tasks

/-- The slots in the order in which the round-robin search visits them. -/
def searchOrder (prev : Option Pid) : List Pid :=
  (List.range maxTasks).map fun i =>
    match prev with
    | none => ⟨i % maxTasks, Nat.mod_lt _ (by decide)⟩
    | some p => ⟨(p.val + (i + 1)) % maxTasks, Nat.mod_lt _ (by decide)⟩

/-- The choice of the next task. -/
def pickNext (tasks : Pid → Task) (prev : Option Pid) : Option Pid :=
  match (searchOrder prev).find? (fun i => (tasks i).state = .ready) with
  | some next => some next
  | none =>
    match prev with
    | some p =>
      if (tasks p).state = .ready ∨ (tasks p).state = .running then some p
      else (List.finRange maxTasks).find? fun i => (tasks i).state = .ready
    | none => (List.finRange maxTasks).find? fun i => (tasks i).state = .ready

/-- Putting the interrupted task back: a running task becomes ready, and its stack
pointer is saved unless the frame is still on the stack that an exec has replaced. -/
def savePrev (savedRsp : Nat) (t : Task) : Task :=
  let t := if t.state = .running then { t with state := .ready } else t
  if t.pendingFreeKstack ≠ 0 ∧ t.pendingFreeKstack ≤ savedRsp ∧
      savedRsp < t.pendingFreeKstack + taskStackSize then t
  else { t with rsp := savedRsp }

/-- The top of the stack on which ring 3 enters the kernel. -/
def kstackTop (t : Task) : Nat :=
  if t.kernelStack ≠ 0 then t.kernelStack + taskStackSize
  else if t.stack ≠ 0 then t.stack + taskStackSize
  else 0

/-- The switch to the chosen task. -/
def switchTo (k : Kernel σ) (next : Pid) : Kernel σ :=
  let k := (k.setCurrent next).modify next fun t =>
    { t with state := .running, ticks := t.ticks + 1 }
  let k := { k with savedRsp := (k.tasks next).rsp }
  let k := if (k.tasks next).cr3 = 0 then k else k.vmmSwitchPml4 (k.tasks next).cr3
  k.tssSetRsp0 (kstackTop (k.tasks next))

/-- The task table after the first half of `do_schedule`: the previous task is put back
and the wake-up pass has run. -/
def readyTasks (k : Kernel σ) : Pid → Task :=
  (List.finRange maxTasks).foldl (wakeTask k.schedulerTicksTotal)
    (match k.currentTask with
      | none => k.tasks
      | some p => Function.update k.tasks p (savePrev k.savedRsp (k.tasks p)))

/-- The task that is left gives back the stack that an exec replaced. -/
def releasePrev (k : Kernel σ) : Kernel σ :=
  match k.currentTask with
  | none => k
  | some p => freePendingKstack S k p

def doSchedule (k : Kernel σ) : Kernel σ :=
  let k := k.setTasks (readyTasks k)
  match pickNext k.tasks k.currentTask with
  | none => k
  | some next => switchTo (releasePrev S k) next

/-- `do_schedule` as `irq_common` and `syscall_isr` enter and leave it. -/
def reschedule (k : Kernel σ) (rsp : Nat) : Kernel σ :=
  { doSchedule S { k with savedRsp := rsp } with needReschedule := false }

def schedulerTick (k : Kernel σ) : Kernel σ :=
  let timerTicks := (k.timerTicks + 1) % 2 ^ 64
  let now := (k.schedulerTicksTotal + 1) % 2 ^ 64
  let tasks := fun i => wakeSleeper now (k.tasks i)
  let expired :=
    match k.currentTask with
    | none => true
    | some c => (timerTicks : Int) % (4 + (tasks c).priority * 2) = 0
  { k with
    tasks := tasks
    timerTicks := timerTicks
    schedulerTicksTotal := now
    needReschedule := k.needReschedule ||
      (k.schedInitialized && decide (1 < taskCount tasks) && expired) }

def schedulerYield (k : Kernel σ) : Kernel σ :=
  if k.schedInitialized ∧ 1 < taskCount k.tasks then { k with needReschedule := true } else k

end Crius.Process
