import Crius.Process.MemStep

/-!
# What one step does to the scheduling fields

`Effect` lists everything a step of the process system can do to the scheduling fields,
`current_task` and `need_reschedule`, and `step_effect` shows that the list is complete.
The invariants of the process tree, of the scheduler and of `task_wait` are proved by
cases on it and never look into the C functions again.
-/
namespace Crius.Process

open Function Option List Links Kernel

variable {σ : Type} {k k' : Kernel σ} {p : Pid} {tasks : Pid → Task} {op : Op}

/-- A task that is neither free nor dead. -/
def TaskState.Alive (s : TaskState) : Prop := s ≠ .unused ∧ s ≠ .zombie

instance (s : TaskState) : Decidable s.Alive := inferInstanceAs (Decidable (_ ∧ _))

/-- What a step means for the process tree. -/
inductive Event where
  | quiet
  | forked (parent child : Pid)
  | died (task : Pid)
  | reaped (child : Pid)
  deriving DecidableEq, Repr

/-- The event of a step, read off the results of the calls. -/
def event (S : Services σ) (k : Kernel σ) : Op → Event
  | .fork frameRip =>
    match k.currentTask, (taskFork S k frameRip).1 with
    | some parent, some child => .forked parent child
    | _, _ => .quiet
  | .exit _ =>
    match k.currentTask with
    | some dying => .died dying
    | none => .quiet
  | .kill id =>
    match taskKill S k id with
    | some (0, _) => if h : 0 ≤ id ∧ id < maxTasks then .died ⟨id.toNat, toNat_lt h⟩ else .quiet
    | _ => .quiet
  | .wait pid options =>
    match taskWait S k pid options with
    | some (.reaped child _, _) => .reaped child
    | _ => .quiet
  | _ => .quiet

/-- The scheduling fields of a fresh task. -/
def freshLinks (parentPid nextSibling : Option Pid) : Links where
  state := .ready
  parentPid := parentPid
  firstChild := none
  nextSibling := nextSibling
  waitForPid := -1
  sleepUntil := 0

/-- The scheduling fields of task `i` after the wake-up pass of `do_schedule`. -/
def readied (k : Kernel σ) (i : Pid) : Links :=
  let l := k.links i
  let s := if k.currentTask = some i ∧ l.state = .running then .ready else l.state
  if s = .sleeping ∧ l.sleepUntil ≤ k.schedulerTicksTotal then
    { l with state := .ready, sleepUntil := 0 }
  else if s = .blocked ∧ zombieChild k.tasks i l.waitForPid then
    { l with state := .ready, waitForPid := -1 }
  else { l with state := s }

/-- A system call of task `p` can be under way. -/
structure Calling (k : Kernel σ) (p : Pid) : Prop where
  current : k.currentTask = some p
  not_idle : p ≠ idle
  running : (k.tasks p).state = .running

inductive Effect (k k' : Kernel σ) : Event → Prop
  | same (links : k'.links = k.links) (current : k'.currentTask = k.currentTask)
      (need : k.needReschedule = true → k'.needReschedule = true) : Effect k k' .quiet
  | forked {p c : Pid} (caller : Calling k p) (free : (k.tasks c).state = .unused)
      (links : k'.links = Function.update
        (Function.update k.links c (freshLinks (some p) (k.tasks p).firstChild)) p
        { k.links p with firstChild := some c })
      (current : k'.currentTask = k.currentTask)
      (need : k'.needReschedule = k.needReschedule) : Effect k k' (.forked p c)
  | died {d : Pid} {tasks : Pid → Task} (not_idle : d ≠ idle) (alive : (k.tasks d).state.Alive)
      (reparent : taskReparentChildren k.tasks d = some tasks)
      (links : k'.links = Function.update (fun i => (tasks i).links) d
        { (tasks d).links with state := .zombie })
      (current : k'.currentTask = k.currentTask)
      (need : k.needReschedule = true ∨ k.currentTask = some d → k'.needReschedule = true) :
      Effect k k' (.died d)
  | reaped {p c : Pid} {tasks : Pid → Task} (caller : Calling k p)
      (zombie : (k.tasks c).state = .zombie) (parent : (k.tasks c).parentPid = some p)
      (remove : taskRemoveChild k.tasks p c = some tasks)
      (links : k'.links = Function.update (fun i => (tasks i).links) c
        ⟨.unused, none, none, none, -1, (tasks c).sleepUntil⟩)
      (current : k'.currentTask = k.currentTask)
      (need : k'.needReschedule = k.needReschedule) : Effect k k' (.reaped c)
  | blocked {p : Pid} {pid : Int} (caller : Calling k p)
      (child : ∃ j, (k.tasks j).state.Alive ∧ (k.tasks j).parentPid = some p ∧ waitMatches pid j)
      (links : k'.links = Function.update k.links p
        { k.links p with state := .blocked, waitForPid := pid })
      (current : k'.currentTask = k.currentTask)
      (need : k'.needReschedule = true) : Effect k k' .quiet
  | slept {p : Pid} {t : Nat} (caller : Calling k p)
      (links : k'.links = Function.update k.links p
        { k.links p with state := .sleeping, sleepUntil := t })
      (current : k'.currentTask = k.currentTask)
      (need : k'.needReschedule = true) : Effect k k' .quiet
  | ticked {now : Nat} (links : k'.links = fun i => (wakeSleeper now (k.tasks i)).links)
      (current : k'.currentTask = k.currentTask)
      (need : k.needReschedule = true → k'.needReschedule = true) : Effect k k' .quiet
  | scheduled {next : Pid} (ready : (readied k next).state = .ready)
      (links : k'.links = Function.update (readied k) next
        { readied k next with state := .running })
      (current : k'.currentTask = some next) : Effect k k' .quiet
  | idled (none_ready : ∀ i, (readied k i).state ≠ .ready) (links : k'.links = readied k)
      (current : k'.currentTask = k.currentTask) : Effect k k' .quiet
  | created {c : Pid} (free : (k.tasks c).state = .unused)
      (links : k'.links = Function.update k.links c (freshLinks k.currentTask none))
      (current : k'.currentTask = k.currentTask) (need : k'.needReschedule = k.needReschedule)
      (some_current : k.currentTask ≠ none) : Effect k k' .quiet
  | first {c : Pid} (free : (k.tasks c).state = .unused)
      (links : k'.links = Function.update k.links c { freshLinks none none with state := .running })
      (no_current : k.currentTask = none)
      (current : k'.currentTask = some c) : Effect k k' .quiet

theorem Effect.of_sameSched (h : SameSched k k') : Effect k k' .quiet :=
  .same h.links h.currentTask (fun hn => h.needReschedule.trans hn)

/-- What holds for each task and for the new value of one holds after the change. -/
theorem update_rel {R : Links → Links → Prop} {f g : Pid → Links} {l : Links}
    (h : ∀ i, R (f i) (g i)) (hl : R (f p) l) (i : Pid) : R (f i) (update g p l i) := by
  by_cases hi : i = p
  · subst hi
    rwa [update_self]
  · rw [update_of_ne hi]
    exact h i

section Calls

variable (S : Services σ) (k : Kernel σ)

/-- The entries of the table that a change of slot `i` leaves alone. -/
theorem links_modify_update (i : Pid) (f : Task → Task) :
    (k.modify i f).links = update k.links i (f (k.tasks i)).links :=
  comp_update Task.links k.tasks i _

theorem links_linkChild {pid slot : Pid} (hne : pid ≠ slot) : (linkChild k pid slot).links = update
      (update k.links slot { k.links slot with nextSibling := (k.tasks pid).firstChild })
      pid { k.links pid with firstChild := some slot } := by
  unfold linkChild
  rw [links_modify_update, links_modify_update, modify_tasks, if_neg hne]
  rfl

theorem links_forkCommit {pid slot : Pid} (frameRip : Nat) (hne : pid ≠ slot) :
    (forkCommit S k pid slot frameRip).links = update
      (update k.links slot (freshLinks (some pid) (k.tasks pid).firstChild)) pid
      { k.links pid with firstChild := some slot } := by
  unfold forkCommit
  simp only
  generalize hk1 : Kernel.modify _ slot (childTask _ _ _) = k1
  have hlinks := (sameSched_foldl (sameSched_shareFd S (k.tasks pid) slot)
    (finRange maxFds) k1).links
  generalize foldl _ k1 _ = k2 at hlinks ⊢
  rw [← hk1, links_modify_update] at hlinks
  have hpid : k2.links pid = k.links pid := by
    rw [hlinks, update_of_ne hne]
    rfl
  have hslot : k2.links slot = freshLinks (some pid) (k.tasks slot).nextSibling := by
    rw [hlinks, update_self]
    rfl
  have hfirst : (k2.tasks pid).firstChild = (k.tasks pid).firstChild :=
    congrArg firstChild hpid
  rw [links_linkChild k2 hne, hpid, hslot, hfirst, hlinks, update_idem]
  rfl

theorem forkCommit_globals (pid slot : Pid) (frameRip : Nat) :
    (forkCommit S k pid slot frameRip).currentTask = k.currentTask ∧
      (forkCommit S k pid slot frameRip).needReschedule = k.needReschedule := by
  have h := sameSched_foldl (sameSched_shareFd S (k.tasks pid) slot) (finRange maxFds)
    ((k.vmmSwitchPml4 (k.tasks pid).cr3).modify slot (childTask (k.tasks pid) pid frameRip))
  exact ⟨h.currentTask, h.needReschedule⟩

variable {k k' : Kernel σ} {p : Pid}

/-- A fork either fails, or adds one task at the head of the caller's child list. -/
theorem effect_taskFork (hc : Calling k p) (frameRip : Nat) :
    Effect k (taskFork S k frameRip).2 (event S k (.fork frameRip)) := by
  unfold event
  dsimp only
  rcases taskFork_cases S k frameRip with hnone | ⟨p', c, ok, k1, hcur, hslot, hacq, hfork⟩
  · rw [hnone, hc.current]
    exact .of_sameSched (.refl k)
  · cases hc.current.symm.trans hcur
    have h1 := hacq.memStep.sameSched
    rw [hfork, hc.current]
    cases ok with
    | false => exact .of_sameSched h1
    | true =>
      have hfree := allocTask_unused hslot
      have hne : p ≠ c := by
        rintro rfl
        rw [hc.running] at hfree
        cases hfree
      have hfirst : (k1.tasks p).firstChild = (k.tasks p).firstChild :=
        congrArg firstChild (congrFun h1.links p)
      obtain ⟨hcur', hneed⟩ := forkCommit_globals S k1 p c frameRip
      refine .forked hc hfree ?_ (hcur'.trans h1.currentTask) (hneed.trans h1.needReschedule)
      simp only [if_true]
      rw [links_forkCommit S k1 frameRip hne, h1.links, hfirst]

/-- The links of a table that a call may have stored into. -/
theorem SameSched.links_tasks (h : SameSched (k.setTasks tasks) k') :
    k'.links = fun i => (tasks i).links :=
  h.links

/-- A task dies: its children are handed over and it becomes a zombie. -/
theorem die_links {d : Pid} {code : Int} (h : die S k d code = some k') :
    ∃ tasks, taskReparentChildren k.tasks d = some tasks ∧
      k'.links = update (fun i => (tasks i).links) d
        { (tasks d).links with state := .zombie } ∧
      k'.currentTask = k.currentTask ∧ k'.needReschedule = k.needReschedule := by
  unfold die at h
  obtain ⟨tasks, htasks, rfl⟩ := map_eq_some_iff.mp h
  have hsame := (sameSched_taskReleaseFds S (k.setTasks tasks) d).trans
    (memStep_freePendingKstack S _ d).sameSched
  refine ⟨tasks, htasks, ?_, hsame.currentTask, hsame.needReschedule⟩
  have hd : (Task.links _) = _ := congrFun hsame.links d
  rw [links_modify_update, hsame.links_tasks]
  have hzombie (t : Task) : Task.links { t with state := .zombie, exitCode := code } =
      { t.links with state := .zombie } := rfl
  rw [hzombie, hd]
  rfl

theorem reap_links {c : Pid} (h : reap S k p c = some k') :
    ∃ tasks, taskRemoveChild k.tasks p c = some tasks ∧
      k'.links = update (fun i => (tasks i).links) c
        ⟨.unused, none, none, none, -1, (tasks c).sleepUntil⟩ ∧
      k'.currentTask = k.currentTask ∧ k'.needReschedule = k.needReschedule := by
  unfold reap at h
  obtain ⟨tasks, htasks, rfl⟩ := map_eq_some_iff.mp h
  have hsame := sameSched_taskCleanup S (k.setTasks tasks) c
  refine ⟨tasks, htasks, ?_, hsame.currentTask, hsame.needReschedule⟩
  have hsleep : (((taskCleanup S (k.setTasks tasks) c).tasks c).sleepUntil) =
      (tasks c).sleepUntil := congrArg sleepUntil (congrFun hsame.links c)
  rw [links_modify_update, hsame.links_tasks, ← hsleep]
  rfl

theorem effect_schedulerTick (k : Kernel σ) : Effect k (schedulerTick k) .quiet := by
  refine .ticked rfl rfl (fun h => ?_)
  simp [schedulerTick, h]

theorem effect_taskCreateArgs (k : Kernel σ) (name : List UInt8) (entry arg : Nat) :
    Effect k (taskCreateArgs S k name entry arg).2 .quiet := by
  rcases taskCreateArgs_cases S k name entry arg with heq | ⟨c, ok, k1, hslot, hacq, hcases⟩
  · rw [heq]
    exact .of_sameSched (.refl k)
  have hfree := allocTask_unused hslot
  have h1 := hacq.memStep.sameSched
  rcases hcases with ⟨-, heq⟩ | ⟨-, hnone, heq⟩ | ⟨-, hsome, heq⟩
  · rw [heq]
    exact .of_sameSched h1
  · rw [heq]
    refine .first hfree ?_ hnone rfl
    rw [links_setCurrent, links_modify_update, h1.links]
    rfl
  · rw [heq]
    refine .created hfree ?_ h1.currentTask h1.needReschedule hsome
    rw [links_modify_update, h1.links]
    rfl

end Calls

/-- `task_create_current` turns slot 0 into the running idle task. -/
theorem taskCreateCurrent_links (S : Services σ) {name : List UInt8}
    (hok : (taskCreateCurrent S k name).1 = true) : (taskCreateCurrent S k name).2.links =
        update k.links idle { freshLinks none none with state := .running } ∧
      (taskCreateCurrent S k name).2.currentTask = some idle := by
  obtain ⟨stack, e, t, -, -, -, heq⟩ := taskCreateCurrent_eq S hok
  rw [heq]
  refine ⟨funext fun i => ?_, rfl⟩
  by_cases hi : i = idle
  · subst hi
    simp [links, setCurrent, idleTask, Task.links, freshLinks]
  · simp [links, setCurrent, hi]

/-! ## The wake-up pass

A round of the pass changes one task, and no round changes who is a zombie or whose
child it is. So what becomes of a task can be said in terms of the table before the
pass. -/

section WakeUp

/-- The tables agree on the zombies and on all parents. -/
def SameZombies (tasks tasks' : Pid → Task) : Prop :=
  ∀ j, ((tasks' j).state = .zombie ↔ (tasks j).state = .zombie) ∧
    (tasks' j).parentPid = (tasks j).parentPid

theorem zombieChild_congr {tasks' : Pid → Task} (h : SameZombies tasks tasks') (i : Pid)
    (wpid : Int) : zombieChild tasks' i wpid = zombieChild tasks i wpid := by
  unfold zombieChild
  congr 1
  funext j
  rw [decide_eq_decide, (h j).1, (h j).2]

theorem sameZombies_update {i : Pid} {t : Task}
    (hstate : t.state = .zombie ↔ (tasks i).state = .zombie)
    (hparent : t.parentPid = (tasks i).parentPid) : SameZombies tasks (update tasks i t) := by
  intro j
  by_cases hj : j = i
  · subst hj
    simp [hstate, hparent]
  · simp [hj]

theorem sameZombies_wakeSleeper (now : Nat) (tasks : Pid → Task) (i : Pid) :
    SameZombies tasks (update tasks i (wakeSleeper now (tasks i))) := by
  apply sameZombies_update
  · unfold wakeSleeper
    split
    · next h => simp [h.1]
    · rfl
  · unfold wakeSleeper
    split <;> rfl

/-- The entry of task `i` after its round of the pass. -/
def wokenTask (now : Nat) (tasks : Pid → Task) (i : Pid) : Task :=
  let t := wakeSleeper now (tasks i)
  if t.state = .blocked ∧ zombieChild tasks i t.waitForPid then
    { t with state := .ready, waitForPid := -1 }
  else t

theorem wakeTask_eq_update (now : Nat) (tasks : Pid → Task) (i : Pid) :
    wakeTask now tasks i = update tasks i (wokenTask now tasks i) := by
  unfold wakeTask wokenTask
  simp only [update_self, update_idem,
    zombieChild_congr (sameZombies_wakeSleeper now tasks i)]
  split <;> rfl

theorem sameZombies_wakeTask (now : Nat) (tasks : Pid → Task) (i : Pid) :
    SameZombies tasks (wakeTask now tasks i) := by
  have hsleeper := sameZombies_wakeSleeper now tasks i i
  simp only [update_self] at hsleeper
  rw [wakeTask_eq_update]
  apply sameZombies_update
  · rw [← hsleeper.1]
    unfold wokenTask
    simp only
    split
    · next h => simp [h.1]
    · rfl
  · rw [← hsleeper.2]
    unfold wokenTask
    simp only
    split <;> rfl

theorem wakePass_apply (now : Nat) (l : List Pid) (hl : l.Nodup) (tasks : Pid → Task) (j : Pid) :
    l.foldl (wakeTask now) tasks j = if j ∈ l then wokenTask now tasks j else tasks j := by
  induction l generalizing tasks with
  | nil => rfl
  | cons i l ih =>
    obtain ⟨hi, hl⟩ := nodup_cons.mp hl
    rw [foldl_cons, ih hl]
    by_cases hj : j = i
    · subst hj
      simp [hi, wakeTask_eq_update]
    · have hsame : wakeTask now tasks i j = tasks j := by
        rw [wakeTask_eq_update, update_of_ne hj]
      have hwoken : wokenTask now (wakeTask now tasks i) j = wokenTask now tasks j := by
        simp only [wokenTask, hsame, zombieChild_congr (sameZombies_wakeTask now tasks i)]
      simp only [mem_cons, hj, false_or, hsame, hwoken]

/-- The table after the interrupted task is put back. -/
def savedTasks (k : Kernel σ) : Pid → Task :=
  match k.currentTask with
  | none => k.tasks
  | some p => Function.update k.tasks p (savePrev k.savedRsp (k.tasks p))

variable (k : Kernel σ)

theorem readyTasks_apply (i : Pid) :
    readyTasks k i = wokenTask k.schedulerTicksTotal (savedTasks k) i := by
  have h := wakePass_apply k.schedulerTicksTotal _ (nodup_finRange maxTasks) (savedTasks k) i
  rw [if_pos (mem_finRange i)] at h
  exact h

/-- A view of a task that does not tell how the task is scheduled while it lives. -/
def Unscheduled {α : Sort*} (f : Task → α) : Prop :=
  ∀ t s sleepUntil waitForPid, (s = t.state ∨ s.Alive ∧ t.state.Alive) →
    f { t with state := s, sleepUntil := sleepUntil, waitForPid := waitForPid } = f t

theorem unscheduled_state {s : TaskState} (hs : ¬s.Alive) : Unscheduled fun t => t.state = s := by
  rintro t s' _ _ (rfl | ⟨hs', ht⟩)
  · rfl
  · exact propext ⟨fun h => absurd (h ▸ hs') hs, fun h => absurd (h ▸ ht) hs⟩

namespace Unscheduled

variable {α : Sort*} {f : Task → α} (hf : Unscheduled f)

include hf

theorem wakeSleeper (now : Nat) (t : Task) : f (wakeSleeper now t) = f t := by
  unfold Process.wakeSleeper
  split
  · next h => exact hf t .ready 0 t.waitForPid (.inr (by rw [h.1]; decide))
  · rfl

theorem wokenTask (now : Nat) (tasks : Pid → Task) (i : Pid) :
    f (wokenTask now tasks i) = f (tasks i) := by
  rw [← hf.wakeSleeper now (tasks i)]
  unfold Process.wokenTask
  simp only
  split
  · next h => exact hf _ .ready _ (-1) (.inr (by rw [h.1]; decide))
  · rfl

theorem readyTasks (hrsp : ∀ t rsp, f { t with rsp := rsp } = f t) (k : Kernel σ) (i : Pid) :
    f (readyTasks k i) = f (k.tasks i) := by
  rw [readyTasks_apply, hf.wokenTask]
  unfold savedTasks
  cases k.currentTask with
  | none => rfl
  | some p =>
    by_cases hi : i = p
    · subst hi
      simp only [update_self, savePrev]
      by_cases hrun : (k.tasks i).state = .running
      · rw [← hf (k.tasks i) .ready _ _ (.inr (by rw [hrun]; decide))]
        simp only [hrun, if_true]
        split
        · rfl
        · exact hrsp { k.tasks i with state := .ready } _
      · simp only [hrun, if_false]
        split
        · rfl
        · exact hrsp _ _
    · simp only [update_of_ne hi]

end Unscheduled

theorem savePrev_links (savedRsp : Nat) (t : Task) : (savePrev savedRsp t).links =
    { t.links with state := if t.state = .running then .ready else t.state } := by
  unfold savePrev
  by_cases h : t.state = .running
  · simp only [h, if_true]
    split <;> rfl
  · simp only [h, if_false]
    split <;> rfl

theorem savedTasks_links (i : Pid) : (savedTasks k i).links = { k.links i with
    state := if k.currentTask = some i ∧ (k.links i).state = .running then .ready
      else (k.links i).state } := by
  unfold savedTasks
  cases hcur : k.currentTask with
  | none => simp only [reduceCtorEq, false_and, if_false, links]
  | some p =>
    by_cases hi : i = p
    · subst hi
      simp only [update_self, savePrev_links, links, true_and]
      rfl
    · have hne : some p ≠ some i := fun h => hi (some.inj h).symm
      simp only [update_of_ne hi, hne, false_and, if_false, links]

theorem sameZombies_savedTasks : SameZombies k.tasks (savedTasks k) := by
  intro j
  have h := savedTasks_links k j
  have hparent : (savedTasks k j).parentPid = (k.tasks j).parentPid := congrArg parentPid h
  have hstate : (savedTasks k j).state = _ := congrArg state h
  refine ⟨?_, hparent⟩
  rw [hstate]
  split
  · next hrun =>
    have hrunning : (k.tasks j).state = .running := hrun.2
    simp [hrunning]
  · rfl

theorem wokenTask_links (now : Nat) (tasks : Pid → Task) (i : Pid) :
    (wokenTask now tasks i).links =
      if (tasks i).state = .sleeping ∧ (tasks i).sleepUntil ≤ now then
        { (tasks i).links with state := .ready, sleepUntil := 0 }
      else if (tasks i).state = .blocked ∧ zombieChild tasks i (tasks i).waitForPid then
        { (tasks i).links with state := .ready, waitForPid := -1 }
      else (tasks i).links := by
  unfold wokenTask wakeSleeper
  split
  · simp [Task.links]
  · simp only
    split <;> rfl

theorem readyTasks_links : (fun i => (readyTasks k i).links) = readied k := by
  funext i
  have hsaved := savedTasks_links k i
  have hsleep : (savedTasks k i).sleepUntil = (k.links i).sleepUntil :=
    congrArg sleepUntil hsaved
  have hwait : (savedTasks k i).waitForPid = (k.links i).waitForPid :=
    congrArg waitForPid hsaved
  have hstate : (savedTasks k i).state = _ := congrArg state hsaved
  rw [readyTasks_apply, wokenTask_links, hsaved, hstate, hsleep, hwait,
    zombieChild_congr (sameZombies_savedTasks k)]
  rfl

end WakeUp

section Selection

theorem mem_searchOrder (prev : Option Pid) (i : Pid) : i ∈ searchOrder prev := by
  have hi := i.isLt
  unfold searchOrder
  rw [List.mem_map]
  cases prev with
  | none => exact ⟨i.val, List.mem_range.mpr hi, Fin.ext (Nat.mod_eq_of_lt hi)⟩
  | some p =>
    have hp := p.isLt
    refine ⟨(i.val + (maxTasks - 1 - p.val)) % maxTasks,
      List.mem_range.mpr (Nat.mod_lt _ (by decide)), Fin.ext ?_⟩
    simp only [maxTasks] at hi hp ⊢
    omega

variable {prev : Option Pid} {k : Kernel σ}

/-- The first search visits every slot, so the others find nothing new. -/
theorem pickNext_eq_some {next : Pid} (hprev : ∀ p, prev = some p → (tasks p).state ≠ .running)
    (h : pickNext tasks prev = some next) : (tasks next).state = .ready := by
  unfold pickNext at h
  split at h
  · next n hfind =>
    cases h
    simpa using find?_some hfind
  · split at h
    · next p _ =>
      split_ifs at h with hp
      · obtain rfl := some.inj h
        exact hp.resolve_right (hprev p rfl)
      · simpa using find?_some h
    · simpa using find?_some h

theorem pickNext_eq_none (h : pickNext tasks prev = none) (i : Pid) : (tasks i).state ≠ .ready := by
  unfold pickNext at h
  split at h
  · cases h
  · next hfind =>
    intro hi
    have := find?_eq_none.mp hfind i (mem_searchOrder prev i)
    simp [hi] at this

/-- The interrupted task is not running when the search looks at it. -/
theorem readyTasks_prev (h : k.currentTask = some p) : (readyTasks k p).state ≠ .running := by
  have hlinks : (readyTasks k p).links = readied k p := congrFun (readyTasks_links k) p
  rw [← links_state, hlinks]
  unfold readied
  simp only [h, true_and]
  split_ifs with h1 h2 h3 <;> simp_all

variable (S : Services σ) (k : Kernel σ) (next : Pid)

@[simp] theorem switchTo_tasks : (switchTo k next).tasks =
    update k.tasks next
      { k.tasks next with state := .running, ticks := (k.tasks next).ticks + 1 } := by
  unfold switchTo
  simp only
  split <;> rfl

theorem Unscheduled.switchTo {α : Sort*} {f : Task → α} (hf : Unscheduled f)
    (hticks : ∀ t ticks, f { t with ticks := ticks } = f t) {k : Kernel σ} {next : Pid}
    (h : (k.tasks next).state = .ready) (i : Pid) :
    f ((switchTo k next).tasks i) = f (k.tasks i) := by
  rw [switchTo_tasks]
  by_cases hi : i = next
  · subst hi
    rw [update_self, ← hf (k.tasks i) .running _ _ (.inr ⟨by decide, by rw [h]; decide⟩)]
    exact hticks { k.tasks i with state := .running } _
  · rw [update_of_ne hi]

@[simp] theorem switchTo_env : (switchTo k next).env = k.env := by
  unfold switchTo
  simp only
  split <;> rfl

theorem switchTo_links : (switchTo k next).links =
    update k.links next { k.links next with state := .running } := by
  funext i
  unfold links
  rw [switchTo_tasks]
  by_cases hi : i = next
  · subst hi
    simp only [update_self]
    rfl
  · simp only [update_of_ne hi]

@[simp] theorem switchTo_currentTask : (switchTo k next).currentTask = some next := by
  unfold switchTo
  simp only
  split <;> rfl

theorem sameSched_releasePrev : SameSched k (releasePrev S k) := by
  unfold releasePrev
  split
  · exact .refl k
  · exact (memStep_freePendingKstack S k _).sameSched

theorem doSchedule_cases : ∃ tasks, readyTasks k = tasks ∧
    ((∃ next, ((k.setTasks tasks).tasks next).state = .ready ∧
      doSchedule S k = switchTo (releasePrev S (k.setTasks tasks)) next) ∨
    (∀ i, ((k.setTasks tasks).tasks i).state ≠ .ready) ∧ doSchedule S k = k.setTasks tasks) := by
  have hprev (p : Pid) (hp : k.currentTask = some p) := readyTasks_prev hp
  refine ⟨_, rfl, ?_⟩
  unfold doSchedule
  generalize readyTasks k = tasks at hprev ⊢
  simp only
  cases hpick : pickNext (k.setTasks tasks).tasks (k.setTasks tasks).currentTask with
  | none => exact .inr ⟨pickNext_eq_none hpick, rfl⟩
  | some next => exact .inl ⟨next, pickNext_eq_some hprev hpick, rfl⟩

/-- What the three parts of `do_schedule` keep, it keeps. -/
theorem doSchedule_rule (S : Services σ) {k : Kernel σ} {P : Kernel σ → Prop}
    (hready : ∀ tasks, readyTasks k = tasks → P (k.setTasks tasks))
    (hrelease : ∀ k p, P k → P (freePendingKstack S k p))
    (hswitch : ∀ k next, (k.tasks next).state = .ready → P k → P (switchTo k next)) :
    P (doSchedule S k) := by
  obtain ⟨tasks, htasks, ⟨next, hnext, heq⟩ | ⟨-, heq⟩⟩ := doSchedule_cases S k <;> rw [heq]
  · refine hswitch _ next ?_ ?_
    · rw [(sameSched_releasePrev S _).state]
      exact hnext
    · unfold releasePrev
      split
      · exact hready tasks htasks
      · exact hrelease _ _ (hready tasks htasks)
  · exact hready tasks htasks

/-- `do_schedule` switches to a ready task, if there is one. -/
theorem doSchedule_links : (∃ next, (readied k next).state = .ready ∧
      (doSchedule S k).links = update (readied k) next
        { readied k next with state := .running } ∧
      (doSchedule S k).currentTask = some next) ∨
    ((∀ i, (readied k i).state ≠ .ready) ∧ (doSchedule S k).links = readied k ∧
      (doSchedule S k).currentTask = k.currentTask) := by
  obtain ⟨tasks, htasks, hcases⟩ := doSchedule_cases S k
  have hlinks : (k.setTasks tasks).links = readied k := by rw [← readyTasks_links, htasks]; rfl
  have hstate (i : Pid) : ((k.setTasks tasks).tasks i).state = (readied k i).state := by
    rw [← hlinks]; rfl
  simp only [hstate] at hcases
  rcases hcases with ⟨next, hnext, heq⟩ | ⟨hnone, heq⟩
  · refine .inl ⟨next, hnext, ?_, by rw [heq, switchTo_currentTask]⟩
    rw [heq, switchTo_links, (sameSched_releasePrev S _).links, hlinks]
  · rw [heq]
    exact .inr ⟨hnone, hlinks, rfl⟩

theorem effect_reschedule (rsp : Nat) : Effect k (reschedule S k rsp) .quiet := by
  have h := doSchedule_links S { k with savedRsp := rsp }
  unfold reschedule
  generalize doSchedule S { k with savedRsp := rsp } = k1 at h ⊢
  rcases h with ⟨next, hnext, hlinks, hcur⟩ | ⟨hnone, hlinks, hcur⟩
  · exact .scheduled hnext hlinks hcur
  · exact .idled hnone hlinks hcur

end Selection

theorem calling_of_caller (h : k.caller.isSome) : ∃ p, Calling k p := by
  obtain ⟨p, hp⟩ := isSome_iff_exists.mp h
  obtain ⟨hcur, hidle, hrun⟩ := caller_eq_some hp
  exact ⟨p, hcur, hidle, hrun⟩

/-- What a system call of task `p` comes to. -/
inductive CallCase (S : Services σ) (k : Kernel σ) (p : Pid) : Op → Kernel σ → Prop
  | same {op : Op} (quiet : event S k op = .quiet) : CallCase S k p op k
  | fork (frameRip : Nat) : CallCase S k p (.fork frameRip) (taskFork S k frameRip).2
  | exec (path : List UInt8) (argv : List (List UInt8)) :
      CallCase S k p (.exec path argv) (doExec S k path argv).2
  | exit {code : Int} {k1 : Kernel σ} (died : die S k p code = some k1) :
      CallCase S k p (.exit code) { k1 with needReschedule := true }
  | kill {id : Int} {i : Pid} {k1 : Kernel σ} (event : event S k (.kill id) = .died i)
      (other : k.currentTask ≠ some i) (not_idle : i ≠ idle) (alive : (k.tasks i).state.Alive)
      (died : die S k i (-Abi.SIGKILL) = some k1) : CallCase S k p (.kill id) k1
  | reap {pid options : Int} {k1 : Kernel σ} (c : Pid)
      (result : taskWait S k pid options =
        some (.reaped c (waitStatus (k.tasks c).exitCode), k1)) (zombie : (k.tasks c).state = .zombie)
      (parent : (k.tasks c).parentPid = some p) (reaped : reap S k p c = some k1) :
      CallCase S k p (.wait pid options) k1
  | block {pid options : Int} (quiet : event S k (.wait pid options) = .quiet)
      (child : ∃ j, (k.tasks j).state.Alive ∧ (k.tasks j).parentPid = some p ∧ waitMatches pid j) :
      CallCase S k p (.wait pid options) ({ k with needReschedule := true }.modify p
        fun t => { t with state := .blocked, waitForPid := pid })
  | sleep (ms : Nat) : CallCase S k p (.sleep ms) ({ k with needReschedule := true }.modify p fun t =>
      { t with sleepUntil := (k.schedulerTicksTotal + ms) % 2 ^ 64, state := .sleeping })
  | yield : CallCase S k p .yield { k with needReschedule := true }
  | setPriority {id priority v : Int} (i : Pid) :
      CallCase S k p (.setPriority id priority) (k.modify i fun t => { t with priority := v })

theorem called_kill (S : Services σ) (p : Pid) {id r : Int} (h : taskKill S k id = some (r, k')) :
    CallCase S k p (.kill id) k' := by
  have hevent : event S k (.kill id) = match some (r, k') with
      | some (0, _) => if h : 0 ≤ id ∧ id < maxTasks then .died ⟨id.toNat, toNat_lt h⟩ else .quiet
      | _ => .quiet := by rw [← h]; rfl
  unfold taskKill at h
  by_cases hid : 0 ≤ id ∧ id < maxTasks
  · simp only [dif_pos hid] at h hevent
    split_ifs at h with hcur hidle hdead
    · cases h
      exact .same hevent
    · cases h
      exact .same hevent
    · cases h
      exact .same hevent
    · obtain ⟨k1, hdie, he⟩ := map_eq_some_iff.mp h
      cases he
      exact .kill hevent hcur hidle (not_or.mp hdead) hdie
  · simp only [dif_neg hid] at h hevent
    cases h
    exact .same hevent

/-- One pass of a wait reaps a zombie child, or blocks the caller while a child that it
waits for is alive, or changes nothing. -/
theorem called_wait (S : Services σ) (hc : k.currentTask = some p) {pid options : Int}
    {r : WaitOutcome} (h : taskWait S k pid options = some (r, k')) :
    CallCase S k p (.wait pid options) k' := by
  have hresult := h
  unfold taskWait at h
  split at h
  · next hnone => cases hc.symm.trans hnone
  next p' hcur =>
  cases hc.symm.trans hcur
  split at h
  · next c hfound =>
    obtain ⟨k1, hreap, he⟩ := map_eq_some_iff.mp h
    cases he
    have hz := find?_some hfound
    simp only [decide_eq_true_eq] at hz
    exact .reap c hresult hz.1 hz.2.1 hreap
  · split_ifs at h with hchild hnohang
    · cases h
      exact .same (by simp only [event, hresult])
    · cases h
      obtain ⟨j, -, hj⟩ := any_eq_true.mp hchild
      simp only [decide_eq_true_eq] at hj
      exact .block (by simp only [event, hresult]) ⟨j, ⟨hj.1, hj.2.1⟩, hj.2.2⟩
    · cases h
      exact .same (by simp only [event, hresult])

theorem called_syscall (S : Services σ) (hc : k.currentTask = some p) (h : syscall S k op = some k') :
    CallCase S k p op k' := by
  cases op with
  | fork frameRip =>
    cases h
    exact .fork frameRip
  | exec path argv =>
    cases h
    exact .exec path argv
  | exit code =>
    unfold syscall taskExitCode at h
    rw [hc] at h
    obtain ⟨k1, hdie, rfl⟩ := map_eq_some_iff.mp h
    exact .exit hdie
  | kill id =>
    obtain ⟨⟨r, k1⟩, hkill, rfl⟩ := map_eq_some_iff.mp h
    exact called_kill S p hkill
  | wait pid options =>
    obtain ⟨⟨r, k1⟩, hwait, rfl⟩ := map_eq_some_iff.mp h
    exact called_wait S hc hwait
  | sleep ms =>
    cases h
    unfold taskSleep
    split
    · next hnone => cases hc.symm.trans hnone
    · next p' hcur =>
      cases hc.symm.trans hcur
      exact .sleep ms
  | yield =>
    cases h
    unfold schedulerYield
    split
    · exact .yield
    · exact .same rfl
  | setPriority id priority =>
    cases h
    unfold taskSetPriority
    split
    · exact .setPriority _
    · exact .same rfl
  | tick => cases h
  | reschedule rsp => cases h
  | create name entry => cases h

theorem effect_syscall (S : Services σ) (hc : Calling k p) (h : syscall S k op = some k') :
    Effect k k' (event S k op) := by
  cases called_syscall S hc.current h with
  | same quiet =>
    rw [quiet]
    exact .of_sameSched (.refl k)
  | fork frameRip => exact effect_taskFork S hc frameRip
  | exec path argv => exact .of_sameSched (memStep_doExec S k path argv).sameSched
  | exit died =>
    obtain ⟨tasks, htasks, hlinks, hcur, -⟩ := die_links S died
    simp only [event, hc.current]
    refine .died hc.not_idle ?_ htasks hlinks hcur (fun _ => rfl)
    rw [hc.running]
    decide
  | kill event other not_idle alive died =>
    obtain ⟨tasks, htasks, hlinks, hcur, hneed⟩ := die_links S died
    rw [event]
    refine .died not_idle alive htasks hlinks hcur ?_
    rintro (hn | hn)
    · rw [hneed, hn]
    · exact absurd hn other
  | reap c result zombie parent reaped =>
    obtain ⟨tasks, hremove, hlinks, hcur, hneed⟩ := reap_links S reaped
    simp only [event, result]
    exact .reaped hc zombie parent hremove hlinks hcur hneed
  | block quiet child =>
    rw [quiet]
    exact .blocked hc child (links_modify_update _ _ _) rfl rfl
  | sleep ms => exact .slept hc (links_modify_update _ _ _) rfl rfl
  | yield => exact .same rfl rfl (fun _ => rfl)
  | setPriority i => exact .of_sameSched (.modify rfl)

/-- A step is a system call of the running task, an interrupt or the creation of a task. -/
theorem step_cases {S : Services σ} (h : step S k op = some k') :
    (∃ p, Calling k p ∧ syscall S k op = some k') ∨ (op = .tick ∧ k' = schedulerTick k) ∨
      (∃ rsp, op = .reschedule rsp ∧ k' = reschedule S k rsp) ∨
      ∃ name entry, op = .create name entry ∧ k' = (taskCreate S k name entry).2 := by
  have hcall (hsome : (if k.caller.isSome then syscall S k op else none) = some k') :
      ∃ p, Calling k p ∧ syscall S k op = some k' := by
    split_ifs at hsome with hcaller
    obtain ⟨p, hp⟩ := calling_of_caller hcaller
    exact ⟨p, hp, hsome⟩
  cases op with
  | tick => exact .inr (.inl ⟨rfl, (some.inj h).symm⟩)
  | reschedule rsp => exact .inr (.inr (.inl ⟨rsp, rfl, (some.inj h).symm⟩))
  | create name entry => exact .inr (.inr (.inr ⟨name, entry, rfl, (some.inj h).symm⟩))
  | _ => exact .inl (hcall h)

/-- Every step has one of the listed effects. -/
theorem step_effect (S : Services σ) (h : step S k op = some k') : Effect k k' (event S k op) := by
  rcases step_cases h with
    ⟨p, hp, hcall⟩ | ⟨rfl, rfl⟩ | ⟨rsp, rfl, rfl⟩ | ⟨name, entry, rfl, rfl⟩
  · exact effect_syscall S hp hcall
  · exact effect_schedulerTick k
  · exact effect_reschedule S k rsp
  · exact effect_taskCreateArgs S k name entry 0

end Crius.Process
