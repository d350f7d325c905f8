import Crius.Process.ChildList
import Crius.Process.Effect

/-!
# The scheduler as a state machine

From the moment at which `task_create_current` has made the boot context the idle task,
at most the current task is running, a current task that has left the running state has
asked for a reschedule, and idle can always run. So `do_schedule` never comes back
without a task, and the one it resumes was ready.
-/
namespace Crius.Process

open Lib.Run Function

variable {σ : Type} {k k' : Kernel σ}

structure SchedInv (k : Kernel σ) : Prop where
  running : ∀ i, (k.links i).state = .running → k.currentTask = some i
  current : ∃ c, k.currentTask = some c ∧
    ((k.links c).state = .running ∨ k.needReschedule = true)
  idle : (k.links idle).state = .ready ∨ (k.links idle).state = .running

/-- A task neither starts nor stops to run, and stays ready. -/
structure Keeps (l l' : Links) : Prop where
  running : l'.state = .running ↔ l.state = .running
  ready : l.state = .ready → l'.state = .ready

theorem Keeps.of_state {l l' : Links} (h : l'.state = l.state) : Keeps l l' :=
  ⟨by rw [h], h.trans⟩

/-- A slot is taken or given back. -/
theorem Keeps.of_idle {l l' : Links} (h : l.state = .unused ∨ l.state = .zombie)
    (h' : l'.state ≠ .running) : Keeps l l' := by
  rcases h with h | h
  · exact ⟨by simp [h, h'], by simp [h]⟩
  · exact ⟨by simp [h, h'], by simp [h]⟩

theorem keeps_wakeSleeper (now : Nat) (t : Task) : Keeps t.links (wakeSleeper now t).links := by
  unfold wakeSleeper
  split
  · next hs => exact ⟨by simp [Task.links, hs.1], by simp [Task.links]⟩
  · exact .of_state rfl

theorem SchedInv.of_keeps (h : SchedInv k) (hk : ∀ i, Keeps (k.links i) (k'.links i))
    (hcur : k'.currentTask = k.currentTask)
    (hneed : k.needReschedule = true → k'.needReschedule = true) : SchedInv k' := by
  obtain ⟨c, hc, hstate⟩ := h.current
  exact ⟨fun i hi => hcur ▸ h.running i ((hk i).running.mp hi),
    ⟨c, hcur.trans hc, hstate.imp (hk c).running.mpr hneed⟩,
    h.idle.imp (hk _).ready (hk _).running.mpr⟩

/-- One task other than idle stops, and asks for a reschedule if it was the current one. -/
theorem SchedInv.of_stopped (h : SchedInv k) {d : Pid} (hd : d ≠ Process.idle)
    (hstate : ∀ i, i ≠ d → (k'.links i).state = (k.links i).state)
    (hstop : (k'.links d).state ≠ .running) (hcur : k'.currentTask = k.currentTask)
    (hneed : k.needReschedule = true ∨ k.currentTask = some d → k'.needReschedule = true) :
    SchedInv k' := by
  obtain ⟨c, hc, hold⟩ := h.current
  refine ⟨fun i hi => ?_, ⟨c, hcur.trans hc, ?_⟩, ?_⟩
  · have hid : i ≠ d := fun he => hstop (he ▸ hi)
    rw [hcur]
    exact h.running i ((hstate i hid).symm.trans hi)
  · by_cases hcd : c = d
    · exact .inr (hneed (.inr (hcd ▸ hc)))
    · rw [hstate c hcd]
      exact hold.imp_right fun hn => hneed (.inl hn)
  · rw [hstate _ hd.symm]
    exact h.idle

theorem readied_idle (h : (k.links idle).state = .ready ∨ (k.links idle).state = .running)
    (hrun : ∀ i, (k.links i).state = .running → k.currentTask = some i) :
    (readied k idle).state = .ready := by
  unfold readied
  rcases h with h | h
  · simp [h]
  · simp [h, hrun idle h]

/-- The wake-up pass leaves no task running. -/
theorem readied_not_running (hrun : ∀ i, (k.links i).state = .running → k.currentTask = some i)
    (i : Pid) : (readied k i).state ≠ .running := by
  unfold readied
  by_cases h : (k.links i).state = .running
  · simp [h, hrun i h]
  · simp only [h, and_false, if_false]
    split_ifs <;> simp [h]

theorem SchedInv.effect {e : Event} (h : SchedInv k) (he : Effect k k' e) : SchedInv k' := by
  cases he with
  | same links current need => exact h.of_keeps (fun i => links ▸ .of_state rfl) current need
  | forked caller free links current need =>
    exact h.of_keeps (links ▸ update_rel (update_rel (fun _ => .of_state rfl)
      (.of_idle (.inl free) (by simp [freshLinks])))
      (.of_state rfl)) current need.trans
  | died not_idle alive reparent links current need =>
    refine h.of_stopped not_idle (fun i hi => ?_) (by rw [links, update_self]; simp) current need
    rw [links, update_of_ne hi]
    exact (SameButLinks.taskReparentChildren reparent).state i
  | reaped caller zombie parent remove links current need =>
    have hstate := (SameButLinks.taskRemoveChild remove).state
    exact h.of_keeps (links ▸ update_rel (fun i => .of_state (hstate i))
      (.of_idle (.inr zombie) (by simp)))
      current need.trans
  | blocked caller child links current need =>
    refine h.of_stopped caller.not_idle (fun i hi => ?_) ?_ current fun _ => need
    · rw [links, update_of_ne hi]
    · simp [links]
  | slept caller links current need =>
    refine h.of_stopped caller.not_idle (fun i hi => ?_) ?_ current fun _ => need
    · rw [links, update_of_ne hi]
    · simp [links]
  | ticked links current need => exact h.of_keeps (links ▸ fun i => keeps_wakeSleeper _ _) current need
  | @scheduled next ready links current =>
    have hnext : (k'.links next).state = .running := by
      rw [links, update_self]
    refine ⟨?_, ⟨next, current, .inl hnext⟩, ?_⟩
    · intro i hi
      by_cases hin : i = next
      · rw [current, hin]
      · rw [links, update_of_ne hin] at hi
        exact absurd hi (readied_not_running h.running i)
    · by_cases hin : Process.idle = next
      · right
        rw [hin]
        exact hnext
      · left
        rw [links, update_of_ne hin]
        exact readied_idle h.idle h.running
  | idled none_ready links current =>
    exact absurd (readied_idle h.idle h.running) (none_ready _)
  | created free links current need some_current =>
    exact h.of_keeps (links ▸ update_rel (fun _ => .of_state rfl)
      (.of_idle (.inl free) (by simp [freshLinks]))) current
      need.trans
  | first free links no_current current =>
    obtain ⟨c, hc, -⟩ := h.current
    rw [no_current] at hc
    cases hc

/-- `task_create_current` on a table of free slots. -/
theorem schedInv_taskCreateCurrent (S : Services σ) {name : List UInt8}
    (hfree : ∀ i, (k.tasks i).state = .unused) (hok : (taskCreateCurrent S k name).1 = true) :
    SchedInv (taskCreateCurrent S k name).2 := by
  obtain ⟨hlinks, hcur⟩ := taskCreateCurrent_links S hok
  have hidle : ((taskCreateCurrent S k name).2.links Process.idle).state = .running := by
    rw [hlinks, update_self]
  refine ⟨?_, ⟨Process.idle, hcur, .inl hidle⟩, .inr hidle⟩
  intro i hi
  by_cases hii : i = Process.idle
  · rw [hii, hcur]
  · rw [hlinks, update_of_ne hii] at hi
    have hunused : (k.links i).state = .unused := hfree i
    rw [hunused] at hi
    cases hi

/-- `do_schedule` in terms of the choice it makes. -/
theorem doSchedule_currentTask (S : Services σ) {next : Pid}
    (h : pickNext (readyTasks k) k.currentTask = some next) :
    (doSchedule S k).currentTask = some next := by
  unfold doSchedule
  generalize readyTasks k = tasks at h ⊢
  have h' : pickNext (k.setTasks tasks).tasks (k.setTasks tasks).currentTask = some next := h
  simp only [h', switchTo_currentTask]

/-- In a state of the invariant, `do_schedule` finds a task, and it takes a ready one. -/
theorem SchedInv.pickNext_ready (h : SchedInv k) :
    ∃ next, pickNext (readyTasks k) k.currentTask = some next ∧
      (readyTasks k next).state = .ready := by
  have hidle : (readyTasks k Process.idle).state = .ready := by
    rw [← links_state]
    exact (congrArg Links.state (congrFun (readyTasks_links k) Process.idle)).trans
      (readied_idle h.idle h.running)
  have hprev (p : Pid) (hp : k.currentTask = some p) := readyTasks_prev hp
  generalize readyTasks k = tasks at hidle hprev ⊢
  cases hpick : pickNext tasks k.currentTask with
  | none => exact absurd hidle (pickNext_eq_none hpick _)
  | some next => exact ⟨next, rfl, pickNext_eq_some hprev hpick⟩

theorem SchedInv.savedRsp (h : SchedInv k) (rsp : Nat) :
    SchedInv { k with savedRsp := rsp } := ⟨h.running, h.current, h.idle⟩

/-- After `task_create_current`, whatever interrupts and tasks do: at most one task is
running and it is the current one; a current task that is not running has asked for a
reschedule; idle is ready or running; and `do_schedule` always chooses a task, which is
ready when it is chosen. -/
theorem scheduler_state_machine (S : Services σ) (k₀ : Kernel σ) (name : List UInt8)
    (hfree : ∀ i, (k₀.tasks i).state = .unused) (hok : (taskCreateCurrent S k₀ name).1 = true)
    (ops : List Op) (k : Kernel σ)
    (hrun : run (step S) (taskCreateCurrent S k₀ name).2 ops = some k) :
    (∀ i, (k.tasks i).state = .running → k.currentTask = some i) ∧
    (∃ c, k.currentTask = some c ∧
      ((k.tasks c).state ≠ .running → k.needReschedule = true)) ∧
    ((k.tasks idle).state = .ready ∨ (k.tasks idle).state = .running) ∧
    (∀ rsp, ∃ next,
      pickNext (readyTasks { k with savedRsp := rsp }) k.currentTask = some next ∧
      (readyTasks { k with savedRsp := rsp } next).state = .ready ∧
      (doSchedule S { k with savedRsp := rsp }).currentTask = some next) := by
  have hinv : SchedInv k := run_invariant (step S)
    (fun _ _ _ h hstep => h.effect (step_effect S hstep))
    (schedInv_taskCreateCurrent S hfree hok) hrun
  refine ⟨hinv.running, ?_, hinv.idle, ?_⟩
  · obtain ⟨c, hc, hstate⟩ := hinv.current
    exact ⟨c, hc, fun hne => hstate.resolve_left hne⟩
  · intro rsp
    obtain ⟨next, hpick, hready⟩ := (hinv.savedRsp rsp).pickNext_ready
    exact ⟨next, hpick, hready, doSchedule_currentTask S hpick⟩

/-- A run from a zeroed kernel: idle is made, the timer ticks, a task is created. -/
theorem scheduler_state_machine_boot :
    let k := (taskCreateCurrent bumpServices (Kernel.zeroed 4096) []).2
    let k' := (taskCreate bumpServices (schedulerTick k) [] 0).2
    run (step bumpServices) k [.tick, .create [] 0] = some k' ∧
      ((k'.tasks idle).state = .ready ∨ (k'.tasks idle).state = .running) :=
  ⟨rfl, (scheduler_state_machine bumpServices (Kernel.zeroed 4096) [] (fun _ => rfl) rfl
    [.tick, .create [] 0] _ rfl).2.2.1⟩

end Crius.Process
