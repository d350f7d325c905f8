import Crius.Process.Lifecycle

/-!
# Fork

`process/fork.c`. The register frame that the child is resumed from is a copy of the
caller's syscall frame; of its words only the saved `RIP` reaches the task table.
-/
namespace Crius.Process

open Fs

variable {σ : Type} (S : Services σ)

/-- Sharing one descriptor with the child. -/
def shareFd (parent : Task) (slot : Pid) (k : Kernel σ) (fd : Fd) : Kernel σ :=
  match parent.fds fd with
  | none => k.modify slot fun t => { t with fds := Function.update t.fds fd none }
  | some f => (k.call (S.fileGet f)).modify slot fun t =>
      { t with fds := Function.update t.fds fd (some f) }

/-- The child's task fields, once its stack and address space exist. -/
def childTask (parent : Task) (pid : Pid) (frameRip : Nat) (t : Task) : Task :=
  { t with
    userRsp := parent.userRsp
    rsp := initialRsp t.stack
    rip := frameRip
    ticks := 0
    priority := parent.priority
    sleepUntil := 0
    arg := parent.arg
    state := .ready
    parentPid := some pid
    firstChild := none
    exitCode := 0
    waitForPid := -1
    pendingFreeKstack := 0
    cwd := parent.cwd }

/-- The child becomes the first in its parent's list. -/
def linkChild (k : Kernel σ) (pid slot : Pid) : Kernel σ :=
  (k.modify slot fun t => { t with nextSibling := (k.tasks pid).firstChild }).modify pid fun t =>
    { t with firstChild := some slot }

/-- The part of `task_fork` that cannot fail. -/
def forkCommit (k : Kernel σ) (pid slot : Pid) (frameRip : Nat) : Kernel σ :=
  let parent := k.tasks pid
  let k := (k.vmmSwitchPml4 parent.cr3).modify slot (childTask parent pid frameRip)
  linkChild ((List.finRange maxFds).foldl (shareFd S parent slot) k) pid slot

/-- `task_fork`; `frameRip` is word 17 of the frame at `saved_rsp_local`. -/
def taskFork (k : Kernel σ) (frameRip : Nat) : Option Pid × Kernel σ :=
  match k.currentTask with
  | none => (none, k)
  | some pid =>
    match allocTask k.tasks with
    | none => (none, k)
    | some slot =>
      let parent := k.tasks pid
      let k := k.modify slot fun t => { t with name := copyName taskNameLen parent.name }
      let (ok, k) := acquireSpace S (fun cr3 => S.vmmCopyUserspace cr3 parent.cr3) k slot
      if ok then (some slot, forkCommit S k pid slot frameRip) else (none, k)

end Crius.Process
