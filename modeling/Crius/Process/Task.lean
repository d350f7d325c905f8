import Crius.Fs.File

/-!
# Task table and kernel state

`include/process/task.h` and the globals of `scheduler/scheduler.c`. A pid is an index
of `tasks[]`; the `-1` of a link field is `none`. Kernel pointers are addresses with `0`
for `NULL`.

The process code calls the memory managers and the file layer. `Services` is the
interface it uses: state functions over an arbitrary type of everything that lives
outside the task table, so that a result about the process code holds for every
behaviour of those calls, and one about a particular service instantiates it.
-/
namespace Crius.Process

open Fs (FileId)

def maxTasks : Nat := 64
def maxFds : Nat := 32
def taskStackSize : Nat := 32768
def taskNameLen : Nat := 64
def taskDefaultPriority : Int := 2
def taskMaxPriority : Int := 5

abbrev Pid := Fin maxTasks
abbrev Fd := Fin maxFds

/-- An `int` that has passed the bounds check of a table is an index of it. -/
theorem toNat_lt {n : Int} {size : Nat} (h : 0 ≤ n ∧ n < size) : n.toNat < size := by omega

/-- The idle task, which `task_create_current` puts into slot 0. -/
def idle : Pid := ⟨0, by decide⟩

/-- The first user process, PID 1. -/
def init : Pid := ⟨1, by decide⟩

inductive TaskState where
  | unused
  | ready
  | running
  | blocked
  | sleeping
  | zombie
  deriving DecidableEq, Repr

structure Task where
  state : TaskState
  rsp : Nat
  rip : Nat
  ticks : Nat
  stack : Nat
  kernelStack : Nat
  userRsp : Nat
  priority : Int
  sleepUntil : Nat
  arg : Nat
  name : List UInt8
  cr3 : BitVec 64
  parentPid : Option Pid
  firstChild : Option Pid
  exitCode : Int
  waitForPid : Int
  nextSibling : Option Pid
  pendingFreeKstack : Nat
  cwd : List UInt8
  fds : Fd → Option FileId

/-- The calls of the process code into the heap, the page allocator, the page-table code,
the loader and the file layer. A returned address of `0` is a failed allocation, and a
returned `false` a negative result. -/
structure Services (σ : Type) where
  kmalloc : Nat → σ → Nat × σ
  kfree : Nat → σ → σ
  pmmAllocPage : σ → BitVec 64 × σ
  pmmFreePage : BitVec 64 → σ → σ
  vmmCreatePml4 : σ → BitVec 64 × σ
  /-- `vmm_map_kernel(pml4)` with the active page table as its first argument -/
  vmmMapKernel : BitVec 64 → BitVec 64 → σ → σ
  vmmMapPage : BitVec 64 → BitVec 64 → BitVec 64 → BitVec 64 → σ → Bool × σ
  vmmCopyUserspace : BitVec 64 → BitVec 64 → σ → Bool × σ
  vmmFreeUserPages : BitVec 64 → σ → σ
  fileGet : FileId → σ → σ
  filePut : FileId → σ → σ
  /-- `vfs_stat`: the size of the file, if the path resolves -/
  vfsStat : List UInt8 → σ → Option Nat × σ
  /-- `vfs_read` into a buffer of the given size: the bytes read, if any -/
  vfsRead : List UInt8 → Nat → σ → Option (List UInt8) × σ
  /-- `elf_load_to_task`: the entry point, `0` on failure -/
  elfLoadToTask : BitVec 64 → List UInt8 → σ → Nat × σ
  /-- the argument block that `do_exec` builds in a fresh page -/
  fillArgPage : BitVec 64 → List (List UInt8) → σ → σ

/-- The task table, the scheduler's globals, the CPU registers the code switches, and
everything else as `env`. -/
structure Kernel (σ : Type) where
  tasks : Pid → Task
  currentTask : Option Pid
  timerTicks : Nat
  schedInitialized : Bool
  needReschedule : Bool
  savedRsp : Nat
  syscallSavedRsp : Nat
  schedulerTicksTotal : Nat
  schedStackTop : Nat
  /-- the active page table -/
  cr3 : BitVec 64
  /-- the ring 0 stack pointer of the TSS -/
  rsp0 : Nat
  env : σ

namespace Kernel

variable {σ : Type}

/-- Change one entry of the task table. -/
def modify (k : Kernel σ) (i : Pid) (f : Task → Task) : Kernel σ :=
  { k with tasks := Function.update k.tasks i (f (k.tasks i)) }

/-- Replace the task table. -/
def setTasks (k : Kernel σ) (tasks : Pid → Task) : Kernel σ := { k with tasks := tasks }

def setCurrent (k : Kernel σ) (i : Pid) : Kernel σ := { k with currentTask := some i }

/-- Call a service that returns nothing. -/
def call (k : Kernel σ) (f : σ → σ) : Kernel σ := { k with env := f k.env }

/-- Call a service that returns a value. -/
def ask {α : Type} (k : Kernel σ) (f : σ → α × σ) : α × Kernel σ :=
  ((f k.env).1, k.call fun e => (f e).2)

def vmmSwitchPml4 (k : Kernel σ) (pml4 : BitVec 64) : Kernel σ := { k with cr3 := pml4 }

def tssSetRsp0 (k : Kernel σ) (rsp0 : Nat) : Kernel σ := { k with rsp0 := rsp0 }

variable (k : Kernel σ) (i : Pid) (f : Task → Task) (g : σ → σ)

@[simp] theorem modify_tasks (j : Pid) :
    (k.modify i f).tasks j = if j = i then f (k.tasks i) else k.tasks j := by
  simp [modify, Function.update_apply]

@[simp] theorem modify_currentTask : (k.modify i f).currentTask = k.currentTask := rfl

@[simp] theorem modify_cr3 : (k.modify i f).cr3 = k.cr3 := rfl

@[simp] theorem modify_env : (k.modify i f).env = k.env := rfl

@[simp] theorem setTasks_tasks (tasks : Pid → Task) : (k.setTasks tasks).tasks = tasks := rfl

@[simp] theorem call_tasks : (k.call g).tasks = k.tasks := rfl

@[simp] theorem call_currentTask : (k.call g).currentTask = k.currentTask := rfl

@[simp] theorem call_cr3 : (k.call g).cr3 = k.cr3 := rfl

@[simp] theorem call_env : (k.call g).env = g k.env := rfl

end Kernel

/-- `alloc_task`: the first free slot. -/
def allocTask (tasks : Pid → Task) : Option Pid :=
  (List.finRange maxTasks).find? fun i => (tasks i).state = .unused

def taskCount (tasks : Pid → Task) : Nat :=
  (List.finRange maxTasks).countP fun i =>
    (tasks i).state ≠ .unused ∧ (tasks i).state ≠ .zombie

theorem allocTask_unused {tasks : Pid → Task} {slot : Pid} (h : allocTask tasks = some slot) :
    (tasks slot).state = .unused := by
  simpa using List.find?_some h

/-- A C string copied into a zeroed buffer of `len` bytes with room for its terminator. -/
def copyName (len : Nat) (s : List UInt8) : List UInt8 :=
  (s.takeWhile (· ≠ 0)).take (len - 1)

end Crius.Process
