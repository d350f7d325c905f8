import Crius.Process.ProcTree

/-!
# Exit status

What a parent learns about the end of a child. `exit_code` holds the argument of an exit
call and, negated, the number of a signal; `task_wait` tells the two apart by the sign.

A ledger beside the kernel notes for every slot whether it is free, in use, or dead and
of which cause. The table agrees with the ledger in every run, so a slot goes through
free, in use, dead and free again, and each death is delivered by one wait. Whether the
status then says what happened depends on the argument of the exit call alone.
-/
namespace Crius.Process

open Abi Lib.Run Function Option

variable {σ : Type} {t : Task} {k : Kernel σ} {l : Life} {p : Pid}

/-! ## The status word -/

def WEXITSTATUS (s : Int) : Int := s / 256 % 256
def WTERMSIG (s : Int) : Int := s % 128
def WIFEXITED (s : Int) : Prop := WTERMSIG s = 0
def WIFSIGNALED (s : Int) : Prop := WTERMSIG s > 0 ∧ WTERMSIG s ≠ 127

instance (s : Int) : Decidable (WIFEXITED s) := inferInstanceAs (Decidable (_ = _))
instance (s : Int) : Decidable (WIFSIGNALED s) := inferInstanceAs (Decidable (_ ∧ _))

/-- How a task comes to its end. -/
inductive Cause where
  | exited (code : Int)
  | killed
  | faulted
  deriving DecidableEq, Repr

namespace Cause

/-- What is stored in `exit_code`. -/
def code : Cause → Int
  | exited c => c
  | killed => -SIGKILL
  | faulted => -SIGSEGV

/-- The status tells the parent what happened. -/
def ReportedBy (s : Int) : Cause → Prop
  | exited c => WIFEXITED s ∧ WEXITSTATUS s = c % 256
  | killed => WIFSIGNALED s ∧ WTERMSIG s = SIGKILL
  | faulted => WIFSIGNALED s ∧ WTERMSIG s = SIGSEGV

instance (s : Int) (cause : Cause) : Decidable (cause.ReportedBy s) := by
  cases cause <;> exact inferInstanceAs (Decidable (_ ∧ _))

/-- The argument of the exit call is not taken for a signal: it is not negative, or it is
one of the two residues for which the negated number happens to read like its exit status. -/
def Clear : Cause → Prop
  | exited c => 0 ≤ c ∨ c % 65536 = 0 ∨ c % 65536 = 0x7f80
  | killed => True
  | faulted => True

theorem reportedBy_waitStatus (cause : Cause) :
    cause.ReportedBy (waitStatus cause.code) ↔ cause.Clear := by
  cases cause with
  | exited c =>
    show WTERMSIG (waitStatus c) = 0 ∧ WEXITSTATUS (waitStatus c) = c % 256 ↔
      0 ≤ c ∨ c % 65536 = 0 ∨ c % 65536 = 0x7f80
    unfold WTERMSIG WEXITSTATUS
    by_cases hc : c < 0
    · have hs : waitStatus c = (-c).bmod (2 ^ 32) := if_pos hc
      rw [hs, Int.bmod_def]
      -- a multiple of 128 ends in 0 or in 128
      by_cases h0 : c % 256 = 0
      · omega
      · by_cases h128 : c % 256 = 128
        · omega
        · omega
    · have hs : waitStatus c = c % 256 * 256 := if_neg hc
      omega
  | killed => exact ⟨fun _ => trivial, fun _ => by decide⟩
  | faulted => exact ⟨fun _ => trivial, fun _ => by decide⟩

end Cause

/-! ## What becomes of a slot -/

inductive Fate where
  | free
  | alive
  | dead (code : Int)
  deriving DecidableEq, Repr

def Task.fate (t : Task) : Fate :=
  match t.state with
  | .unused => .free
  | .zombie => .dead t.exitCode
  | _ => .alive

def Kernel.fates (k : Kernel σ) : Pid → Fate := fun i => (k.tasks i).fate

theorem fate_alive (h : t.state.Alive) : t.fate = .alive := by
  unfold Task.fate
  obtain ⟨hu, hz⟩ := h
  split
  · next hs => exact absurd hs hu
  · next hs => exact absurd hs hz
  · rfl

theorem fate_zombie (h : t.state = .zombie) : t.fate = .dead t.exitCode := by
  unfold Task.fate
  rw [h]

theorem fate_unused (h : t.state = .unused) : t.fate = .free := by
  unfold Task.fate
  rw [h]

theorem fates_modify (k : Kernel σ) (i : Pid) (f : Task → Task) :
    (k.modify i f).fates = update k.fates i (f (k.tasks i)).fate :=
  comp_update Task.fate k.tasks i _

theorem fates_modify_same {i : Pid} {f : Task → Task}
    (h : (f (k.tasks i)).fate = (k.tasks i).fate) : (k.modify i f).fates = k.fates := by
  rw [fates_modify, h]
  exact update_eq_self i k.fates

theorem MemStep.fates {S : Services σ} {k' : Kernel σ} (h : MemStep S k k') :
    k'.fates = k.fates := by
  funext i
  have hcore (t : Task) : t.core.fate = t.fate := rfl
  show (k'.tasks i).fate = (k.tasks i).fate
  rw [← hcore, h.core, hcore]

theorem fates_setTasks {tasks : Pid → Task} (h : SameButLinks k.tasks tasks) :
    (k.setTasks tasks).fates = k.fates := by
  funext i
  show (tasks i).fate = (k.tasks i).fate
  rw [h i]
  rfl

theorem fates_foldl {α : Type} {f : Kernel σ → α → Kernel σ} (hf : ∀ k a, (f k a).fates = k.fates)
    (l : List α) (k : Kernel σ) : (l.foldl f k).fates = k.fates := by
  induction l generalizing k with
  | nil => rfl
  | cons a l ih => exact (ih (f k a)).trans (hf k a)

theorem fates_taskReleaseFds (S : Services σ) (k : Kernel σ) (i : Pid) :
    (taskReleaseFds S k i).fates = k.fates := by
  apply fates_foldl
  intro k fd
  unfold releaseFd
  split
  · rfl
  · exact fates_modify_same rfl

/-! ## Births, deaths and waits -/

section Calls

variable (S : Services σ) {k k' : Kernel σ}

theorem fates_forkCommit (k : Kernel σ) (p c : Pid) (frameRip : Nat) :
    (forkCommit S k p c frameRip).fates = update k.fates c .alive := by
  have hshare (k : Kernel σ) (fd : Fd) (parent : Task) : (shareFd S parent c k fd).fates = k.fates := by
    unfold shareFd
    split
    · exact fates_modify_same rfl
    · exact fates_modify_same rfl
  unfold forkCommit linkChild
  rw [fates_modify_same rfl, fates_modify_same rfl, fates_foldl (fun k fd => hshare k fd _),
    fates_modify]
  rfl

theorem fates_taskFork (k : Kernel σ) (frameRip : Nat) :
    match (taskFork S k frameRip).1 with
    | none => (taskFork S k frameRip).2.fates = k.fates
    | some c => k.fates c = .free ∧
        (taskFork S k frameRip).2.fates = update k.fates c .alive := by
  rcases taskFork_cases S k frameRip with hnone | ⟨p, c, ok, k1, -, hslot, hacq, hfork⟩
  · rw [hnone]
  · have h1 := hacq.memStep.fates
    rw [hfork]
    cases ok with
    | false => exact h1
    | true => exact ⟨fate_unused (allocTask_unused hslot), by simp [fates_forkCommit, h1]⟩

theorem fates_taskCreate (k : Kernel σ) (name : List UInt8) (entry : Nat) :
    match (taskCreate S k name entry).1 with
    | none => (taskCreate S k name entry).2.fates = k.fates
    | some c => k.fates c = .free ∧
        (taskCreate S k name entry).2.fates = update k.fates c .alive := by
  unfold taskCreate
  rcases taskCreateArgs_cases S k name entry 0 with heq | ⟨c, ok, k1, hslot, hacq, hcases⟩
  · rw [heq]
  have hfree := fate_unused (allocTask_unused hslot)
  have h1 := hacq.memStep.fates
  rcases hcases with ⟨-, heq⟩ | ⟨-, hnone, heq⟩ | ⟨-, -, heq⟩
  · rw [heq]
    exact h1
  · rw [heq]
    refine ⟨hfree, ?_⟩
    have hset (k : Kernel σ) : (k.setCurrent c).fates = k.fates := rfl
    rw [hset, fates_modify, h1]
    rfl
  · rw [heq]
    refine ⟨hfree, ?_⟩
    rw [fates_modify, h1]
    rfl

theorem fates_die {d : Pid} {code : Int} (h : die S k d code = some k') :
    k'.fates = update k.fates d (.dead code) := by
  unfold die at h
  obtain ⟨tasks, htasks, rfl⟩ := map_eq_some_iff.mp h
  rw [fates_modify, (memStep_freePendingKstack S _ d).fates, fates_taskReleaseFds,
    fates_setTasks (.taskReparentChildren htasks)]
  rfl

theorem fates_reap {c : Pid} (h : reap S k p c = some k') : k'.fates = update k.fates c .free := by
  unfold reap at h
  obtain ⟨tasks, htasks, rfl⟩ := map_eq_some_iff.mp h
  rw [fates_modify, taskCleanup_eq, fates_taskReleaseFds, (memStep_cleanupMemory S _ c).fates,
    fates_setTasks (.taskRemoveChild htasks)]
  rfl

theorem unscheduled_fate : Unscheduled Task.fate := by
  rintro t s _ _ (rfl | ⟨hs, ht⟩)
  · rfl
  · rw [fate_alive ht]
    exact fate_alive hs

theorem fates_doSchedule (k : Kernel σ) : (doSchedule S k).fates = k.fates := by
  have hready := funext (unscheduled_fate.readyTasks (fun _ _ => rfl) k)
  refine doSchedule_rule S (P := fun k1 => k1.fates = k.fates) (fun tasks h => ?_)
    (fun k1 p h => ?_) fun k1 next hnext h => ?_
  · rw [h] at hready
    exact hready
  · rw [← h]
    exact (memStep_freePendingKstack S k1 p).fates
  · rw [← h]
    exact funext fun i => unscheduled_fate.switchTo (fun _ _ => rfl) hnext i

theorem fates_reschedule (k : Kernel σ) (rsp : Nat) : (reschedule S k rsp).fates = k.fates := by
  have hdo := fates_doSchedule S { k with savedRsp := rsp }
  unfold reschedule
  generalize doSchedule S { k with savedRsp := rsp } = k1 at hdo ⊢
  exact hdo

end Calls

/-! ## The ledger -/

/-- A step of the process system, with a fault of the running user program apart from the
exit call that it is handled like. -/
inductive Act where
  | call (op : Op)
  | fault

def Act.op : Act → Op
  | call op => op
  | fault => .exit (-SIGSEGV)

/-- What a step means for the life of a slot. -/
inductive Turn where
  | quiet
  | born (child : Pid)
  | ended (task : Pid) (cause : Cause)
  | delivered (child : Pid) (status : Int)
  deriving DecidableEq, Repr

/-- The running task ends. -/
def endsCurrent (k : Kernel σ) (cause : Cause) : Turn :=
  match k.currentTask with
  | none => .quiet
  | some d => .ended d cause

/-- The child that a call returns. -/
def bornTurn : Option Pid → Turn
  | none => .quiet
  | some c => .born c

/-- The turn of a step, read off the results of the calls. -/
def turn (S : Services σ) (k : Kernel σ) : Act → Turn
  | .fault => endsCurrent k .faulted
  | .call (.exit code) => endsCurrent k (.exited code)
  | .call (.fork frameRip) => bornTurn (taskFork S k frameRip).1
  | .call (.create name entry) => bornTurn (taskCreate S k name entry).1
  | .call (.kill id) =>
    match event S k (.kill id) with
    | .died d => .ended d .killed
    | _ => .quiet
  | .call (.wait pid options) =>
    match taskWait S k pid options with
    | some (.reaped child status, _) => .delivered child status
    | _ => .quiet
  | .call _ => .quiet

inductive Life where
  | free
  | alive
  | dead (cause : Cause)
  deriving DecidableEq, Repr

def Life.fate : Life → Fate
  | free => .free
  | alive => .alive
  | dead cause => .dead cause.code

abbrev Ledger := Pid → Life

def Ledger.record (L : Ledger) : Turn → Ledger
  | .quiet => L
  | .born c => Function.update L c .alive
  | .ended d cause => Function.update L d (.dead cause)
  | .delivered c _ => Function.update L c .free

/-- The ledger at the start: nobody has died yet. -/
def Kernel.census (k : Kernel σ) : Ledger := fun i =>
  if (k.tasks i).state = .unused then .free else .alive

def ledgerStep (S : Services σ) (s : Kernel σ × Ledger) (act : Act) :
    Option (Kernel σ × Ledger) :=
  (step S s.1 act.op).map fun k => (k, s.2.record (turn S s.1 act))

/-- What a step finds in a slot and leaves there. -/
def TurnOk (k k' : Kernel σ) : Turn → Prop
  | .quiet => k'.fates = k.fates
  | .born c => k.fates c = .free ∧ k'.fates = Function.update k.fates c .alive
  | .ended d cause => k.fates d = .alive ∧ k'.fates = Function.update k.fates d (.dead cause.code)
  | .delivered c status => ∃ code, k.fates c = .dead code ∧ status = waitStatus code ∧
      k'.fates = Function.update k.fates c .free

section Steps

variable (S : Services σ) {k k' : Kernel σ}

theorem turnOk_endsCurrent (hc : Calling k p) (cause : Cause)
    (h : taskExitCode S k cause.code = some k') : TurnOk k k' (endsCurrent k cause) := by
  unfold taskExitCode at h
  unfold endsCurrent
  rw [hc.current] at h ⊢
  obtain ⟨k1, hdie, rfl⟩ := map_eq_some_iff.mp h
  have hrun : (k.tasks p).state.Alive := by
    rw [hc.running]
    decide
  have hfates := fates_die S hdie
  exact ⟨fate_alive hrun, hfates⟩

theorem turnOk_kill (p : Pid) {id r : Int} (h : taskKill S k id = some (r, k')) :
    TurnOk k k' (turn S k (.call (.kill id))) := by
  cases called_kill S p h with
  | same quiet =>
    simp only [turn, quiet]
    rfl
  | kill event _ _ alive died =>
    simp only [turn, event]
    exact ⟨fate_alive alive, fates_die S died⟩

theorem Calling.fate_suspended (hc : Calling k p) : .alive = (k.tasks p).fate := by
  rw [fate_alive]
  rw [hc.running]
  decide

theorem turnOk_wait (hc : Calling k p) {pid options : Int} {r : WaitOutcome}
    (h : taskWait S k pid options = some (r, k')) :
    TurnOk k k' (turn S k (.call (.wait pid options))) := by
  have hquiet (hfates : k'.fates = k.fates) (hevent : event S k (.wait pid options) = .quiet) :
      TurnOk k k' (turn S k (.call (.wait pid options))) := by
    simp only [event, h] at hevent
    simp only [turn, h]
    cases r with
    | reaped child status => cases hevent
    | noChild => exact hfates
    | again => exact hfates
    | blocks => exact hfates
  cases called_wait S hc.current h with
  | same quiet => exact hquiet rfl quiet
  | reap c result zombie _ reaped =>
    simp only [turn, result]
    exact ⟨_, fate_zombie zombie, rfl, fates_reap S reaped⟩
  | block quiet => exact hquiet (fates_modify_same hc.fate_suspended) quiet

theorem turnOk_born {r : Option Pid × Kernel σ} (h : match r.1 with
      | none => r.2.fates = k.fates
      | some c => k.fates c = .free ∧ r.2.fates = update k.fates c .alive) :
    TurnOk k r.2 (bornTurn r.1) := by
  obtain ⟨c, k1⟩ := r
  cases c with
  | none => exact h
  | some c => exact h

/-- The calls that end or begin no life. -/
theorem fates_taskSleep (hc : Calling k p) (ms : Nat) : (taskSleep k ms).fates = k.fates := by
  unfold taskSleep
  rw [hc.current]
  exact fates_modify_same hc.fate_suspended

theorem turnOk_step {act : Act} (h : step S k act.op = some k') : TurnOk k k' (turn S k act) := by
  rcases step_cases h with
    ⟨p, hc, hcall⟩ | ⟨hop, rfl⟩ | ⟨rsp, hop, rfl⟩ | ⟨name, entry, hop, rfl⟩
  · cases act with
    | fault => exact turnOk_endsCurrent S hc .faulted hcall
    | call op =>
      cases op with
      | fork frameRip =>
        cases hcall
        exact turnOk_born (fates_taskFork S k frameRip)
      | exec path argv =>
        cases hcall
        exact (memStep_doExec S k path argv).fates
      | exit code => exact turnOk_endsCurrent S hc (.exited code) hcall
      | kill id =>
        obtain ⟨⟨r, k1⟩, hkill, rfl⟩ := map_eq_some_iff.mp hcall
        exact turnOk_kill S p hkill
      | wait pid options =>
        obtain ⟨⟨r, k1⟩, hwait, rfl⟩ := map_eq_some_iff.mp hcall
        exact turnOk_wait S hc hwait
      | sleep ms =>
        cases hcall
        exact fates_taskSleep hc ms
      | yield =>
        cases hcall
        unfold schedulerYield
        split
        · rfl
        · rfl
      | setPriority id priority =>
        cases hcall
        unfold taskSetPriority
        split
        · exact fates_modify_same rfl
        · rfl
      | tick => cases hcall
      | reschedule rsp => cases hcall
      | create name entry => cases hcall
  all_goals
    obtain rfl : act = .call _ := by
      cases act with
      | fault => cases hop
      | call op => exact congrArg Act.call hop
  · exact funext fun i => unscheduled_fate.wakeSleeper _ (k.tasks i)
  · exact fates_reschedule S k rsp
  · exact turnOk_born (fates_taskCreate S k name entry)

end Steps

/-- The table agrees with the ledger. -/
def LedgerInv (s : Kernel σ × Ledger) : Prop := s.1.fates = fun i => (s.2 i).fate

theorem ledgerInv_census (h : ∀ i, (k.tasks i).state ≠ .zombie) : LedgerInv (k, k.census) := by
  funext i
  show (k.tasks i).fate = (k.census i).fate
  unfold Kernel.census
  split_ifs with hu
  · rw [fate_unused hu]
    rfl
  · rw [fate_alive ⟨hu, h i⟩]
    rfl

theorem fate_update (L : Ledger) (i : Pid) (l : Life) :
    (fun j => (update L i l j).fate) = update (fun j => (L j).fate) i l.fate := by
  funext j
  exact Function.apply_update (fun _ => Life.fate) L i l j

theorem LedgerInv.ledgerStep (S : Services σ) {s s' : Kernel σ × Ledger} {act : Act}
    (h : LedgerInv s) (hstep : ledgerStep S s act = some s') : LedgerInv s' := by
  obtain ⟨k', hk', rfl⟩ := map_eq_some_iff.mp hstep
  have hok := turnOk_step S hk'
  unfold LedgerInv at h ⊢
  generalize turn S s.1 act = t at hok ⊢
  cases t with
  | quiet => exact hok.trans h
  | born c =>
    rw [hok.2, h]
    exact (fate_update s.2 c .alive).symm
  | ended d cause =>
    rw [hok.2, h]
    exact (fate_update s.2 d (.dead cause)).symm
  | delivered c status =>
    obtain ⟨-, -, -, hfates⟩ := hok
    rw [hfates, h]
    exact (fate_update s.2 c .free).symm

theorem Life.fate_eq_free (h : l.fate = .free) : l = .free := by
  cases l with
  | free => rfl
  | alive => cases h
  | dead cause => cases h

theorem Life.fate_eq_alive (h : l.fate = .alive) : l = .alive := by
  cases l with
  | free => cases h
  | alive => rfl
  | dead cause => cases h

theorem Life.fate_eq_dead {code : Int} (h : l.fate = .dead code) :
    ∃ cause : Cause, l = .dead cause ∧ cause.code = code := by
  cases l with
  | free => cases h
  | alive => cases h
  | dead cause => exact ⟨cause, rfl, Fate.dead.inj h⟩

/-- In every run from a state without dead tasks: a new task goes to a slot whose last
life is over and delivered; only a task in use ends; and a wait delivers the status of a
task that has ended and not been delivered, which is then free. The delivered status says
how the task ended if and only if the task was killed, faulted, or left by an exit call
whose argument is not taken for a signal. -/
theorem exit_status_round_trip (S : Services σ) (k₀ : Kernel σ)
    (hstart : ∀ i, (k₀.tasks i).state ≠ .zombie) (acts : List Act) (k : Kernel σ) (L : Ledger)
    (hrun : run (ledgerStep S) (k₀, k₀.census) acts = some (k, L))
    (act : Act) (k' : Kernel σ) (L' : Ledger) (hstep : ledgerStep S (k, L) act = some (k', L')) :
    (∀ c, turn S k act = .born c → L c = .free ∧ L' c = .alive) ∧
    (∀ d cause, turn S k act = .ended d cause → L d = .alive ∧ L' d = .dead cause) ∧
    (∀ c status, turn S k act = .delivered c status → ∃ cause, L c = .dead cause ∧ L' c = .free ∧
      (cause.ReportedBy status ↔ cause.Clear)) := by
  have hinv : LedgerInv (k, L) := run_invariant (ledgerStep S)
    (fun _ _ _ h hs => h.ledgerStep S hs) (ledgerInv_census hstart) hrun
  obtain ⟨k1, hk1, heq⟩ := map_eq_some_iff.mp hstep
  cases heq
  have hok := turnOk_step S hk1
  have hfate (i : Pid) : k.fates i = (L i).fate := congrFun hinv i
  refine ⟨?_, ?_, ?_⟩
  · intro c ht
    rw [ht] at hok ⊢
    exact ⟨Life.fate_eq_free ((hfate c).symm.trans hok.1), update_self ..⟩
  · intro d cause ht
    rw [ht] at hok ⊢
    exact ⟨Life.fate_eq_alive ((hfate d).symm.trans hok.1), update_self ..⟩
  · intro c status ht
    rw [ht] at hok ⊢
    obtain ⟨code, hdead, rfl, -⟩ := hok
    obtain ⟨cause, hcause, rfl⟩ := Life.fate_eq_dead ((hfate c).symm.trans hdead)
    exact ⟨cause, hcause, update_self .., cause.reportedBy_waitStatus⟩

/-- Init forks, the child leaves with the given code, and init waits for it. -/
def forkAndExit (code : Int) : List Act :=
  [.call (.reschedule 0), .call (.fork 0), .call (.reschedule 0), .call (.exit code),
    .call (.reschedule 0), .call (.reschedule 0)]

/-- The status that init is then given, and the ledger's entry for the child. -/
def statusOfExit (code : Int) : Option (Turn × Life) :=
  (run (ledgerStep bumpServices) (bumpBoot, bumpBoot.census) (forkAndExit code)).map fun s =>
    (turn bumpServices s.1 (.call (.wait (-1) 0)), s.2 ⟨2, by decide⟩)

/-- A child that calls `exit(-1)` is reported as killed by signal 1. -/
theorem exit_reported_as_signal :
    statusOfExit (-1) = some (.delivered ⟨2, by decide⟩ 1, .dead (.exited (-1))) ∧
      ¬ (Cause.exited (-1)).ReportedBy 1 ∧ WIFSIGNALED 1 := by
  refine ⟨by decide +kernel, ?_, ?_⟩
  · decide
  · decide

/-- A child that calls `exit(3)` is reported as exited with status 3. -/
theorem exit_status_round_trip_three : ∃ k L, run (ledgerStep bumpServices)
    (bumpBoot, bumpBoot.census) (forkAndExit 3) = some (k, L) ∧
      turn bumpServices k (.call (.wait (-1) 0)) = .delivered ⟨2, by decide⟩ 768 ∧
      ∃ cause, L ⟨2, by decide⟩ = .dead cause ∧ (cause.ReportedBy 768 ↔ cause.Clear) := by
  have hwait : (run (ledgerStep bumpServices) (bumpBoot, bumpBoot.census) (forkAndExit 3)).map
      (fun s => (turn bumpServices s.1 (.call (.wait (-1) 0)),
        (ledgerStep bumpServices s (.call (.wait (-1) 0))).isSome)) =
      some (.delivered ⟨2, by decide⟩ 768, true) := by
    decide +kernel
  obtain ⟨⟨k, L⟩, hrun, heq⟩ := map_eq_some_iff.mp hwait
  obtain ⟨hturn, hsome⟩ := Prod.mk.inj heq
  obtain ⟨⟨k', L'⟩, hstep⟩ := isSome_iff_exists.mp hsome
  have hstart : ∀ i, (bumpBoot.tasks i).state ≠ .zombie := by decide +kernel
  obtain ⟨cause, hcause, -, hiff⟩ := (exit_status_round_trip bumpServices bumpBoot hstart
    (forkAndExit 3) k L hrun _ k' L' hstep).2.2 _ _ hturn
  exact ⟨k, L, hrun, hturn, cause, hcause, hiff⟩

end Crius.Process
