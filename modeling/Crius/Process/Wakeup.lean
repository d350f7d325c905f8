import Crius.Process.ProcTree

/-!
# Waiting parents

A task that blocks in `task_wait` has a child that it waits for, and keeps it until it
runs again: the child is reaped by nobody else, it is taken from its parent only when the
parent dies, and its slot is not reused before it is reaped. The wake-up pass of
`do_schedule` leaves no task blocked whose child is already dead.
-/
namespace Crius.Process

open Lib.Run Function Links Option

variable {σ : Type}

/-- Every blocked task has a child that it waits for. -/
def Awaited (k : Kernel σ) : Prop :=
  ∀ i, (k.tasks i).state = .blocked → ∃ j, (k.tasks j).parentPid = some i ∧
    (k.tasks j).state ≠ .unused ∧ waitMatches (k.tasks i).waitForPid j

variable {k k' : Kernel σ}

/-- A task does not start to wait, and keeps its parent and its slot. -/
structure Stays (l l' : Links) : Prop where
  blocked : l'.state = .blocked → l.state = .blocked ∧ l'.waitForPid = l.waitForPid
  child : l.state ≠ .unused → l'.parentPid = l.parentPid ∧ l'.state ≠ .unused

theorem Stays.refl (l : Links) : Stays l l := ⟨fun h => ⟨h, rfl⟩, fun h => ⟨rfl, h⟩⟩

theorem Stays.fresh {l l' : Links} (hfree : l.state = .unused) (hl : l'.state ≠ .blocked) :
    Stays l l' :=
  ⟨fun h => absurd h hl, fun h => absurd hfree h⟩

theorem stays_wakeSleeper (now : Nat) (t : Task) : Stays t.links (wakeSleeper now t).links := by
  unfold wakeSleeper
  split
  · exact ⟨by simp [Task.links], by simp [Task.links]⟩
  · exact .refl _

/-- After the wake-up pass a blocked task is one that was blocked and has not been woken. -/
theorem readied_blocked {i : Pid} (h : (readied k i).state = .blocked) :
    (k.links i).state = .blocked ∧ (readied k i).waitForPid = (k.links i).waitForPid ∧
      zombieChild k.tasks i (k.links i).waitForPid = false := by
  unfold readied at h ⊢
  simp only at h ⊢
  split_ifs at h ⊢
  simp_all

theorem stays_readied (k : Kernel σ) (i : Pid) : Stays (k.links i) (readied k i) := by
  refine ⟨fun h => ?_, fun h => ?_⟩
  · obtain ⟨hb, hw, -⟩ := readied_blocked h
    exact ⟨hb, hw⟩
  · obtain ⟨s, w, t, hl, hs⟩ := selfChange_readied k i
    rw [hl]
    exact ⟨rfl, fun he => hs.elim (fun hs => h (hs ▸ he)) fun hs => hs.1.1 he⟩

theorem Awaited.of_stays (h : Awaited k) (hs : ∀ i, Stays (k.links i) (k'.links i)) :
    Awaited k' := by
  intro i hi
  obtain ⟨hb, hw⟩ := (hs i).blocked hi
  obtain ⟨j, hparent, hused, hmatch⟩ := h i hb
  obtain ⟨hp, hu⟩ := (hs j).child hused
  exact ⟨j, hp.trans hparent, hu, (show (k'.tasks i).waitForPid = _ from hw) ▸ hmatch⟩

/-- The child lists are edited and one task changes, which does not wait. -/
theorem Awaited.of_relinked (h : Awaited k) {tasks : Pid → Task} {x : Pid} {l : Links}
    (hsame : SameButLinks k.tasks tasks)
    (hlinks : k'.links = update (fun i => (tasks i).links) x l) (hl : l.state ≠ .blocked)
    (hchild : ∀ i j, i ≠ x → (k.tasks i).state = .blocked → (k.tasks j).parentPid = some i →
      (tasks j).parentPid = some i ∧ (j = x → l.parentPid = some i ∧ l.state ≠ .unused)) :
    Awaited k' := by
  have hother (i : Pid) (hi : i ≠ x) : k'.links i = (tasks i).links := by
    rw [hlinks, update_of_ne hi]
  have hx : k'.links x = l := by rw [hlinks, update_self]
  intro i hi
  have hix : i ≠ x := by
    rintro rfl
    exact hl ((congrArg state hx).symm.trans hi)
  have hb := (hsame.state i).symm.trans ((congrArg state (hother i hix)).symm.trans hi)
  have hw := (congrArg waitForPid (hother i hix)).trans (hsame.waitForPid i)
  obtain ⟨j, hparent, hused, hmatch⟩ := h i hb
  obtain ⟨hp, hjx⟩ := hchild i j hix hb hparent
  refine ⟨j, ?_, ?_, (show (k'.tasks i).waitForPid = _ from hw) ▸ hmatch⟩
  · by_cases hj : j = x
    · subst hj
      exact (congrArg parentPid hx).trans (hjx rfl).1
    · exact (congrArg parentPid (hother j hj)).trans hp
  · by_cases hj : j = x
    · subst hj
      exact fun he => (hjx rfl).2 ((congrArg state hx).symm.trans he)
    · exact fun he => hused ((hsame.state j).symm.trans
        ((congrArg state (hother j hj)).symm.trans he))

theorem Awaited.effect {T : ProcTree} {e : Event} (h : Awaited k) (ht : TreeInv k T)
    (he : Effect k k' e) : Awaited k' := by
  cases he with
  | same links current need => exact h.of_stays fun i => links ▸ .refl _
  | forked caller free links current need =>
    refine h.of_stays (links ▸ update_rel (update_rel (fun _ => .refl _)
      (.fresh free (by simp [freshLinks]))) ?_)
    exact ⟨fun hb => ⟨hb, rfl⟩, fun hu => ⟨rfl, hu⟩⟩
  | @died d tasks not_idle alive reparent links current need =>
    obtain ⟨tasks', l, m, hsome, hl, -, -, -, -, -, hparent⟩ := ht.reparent not_idle
    obtain rfl : tasks' = tasks := some.inj (hsome.symm.trans reparent)
    refine h.of_relinked (.taskReparentChildren reparent) links (by simp) fun i j hi _ hj => ?_
    -- a child that changes hands was one of the dying task, which no longer waits
    have hjl : j ∉ l := fun hjl =>
      hi (some.inj (hj.symm.trans (ht.child j d ((hl j).mp hjl)).2.1))
    have hp : (tasks' j).parentPid = some i := by
      rw [hparent, if_neg hjl]
      exact hj
    exact ⟨hp, fun hjd => ⟨hjd ▸ hp, by simp⟩⟩
  | @reaped p c tasks caller zombie parent remove links current need =>
    refine h.of_relinked (.taskRemoveChild remove) links (by simp) fun i j _ hb hj => ⟨?_, ?_⟩
    · rw [taskRemoveChild_parentPid remove]
      exact hj
    · -- the reaped child belongs to the caller, which runs and is not the one that waits
      rintro rfl
      obtain rfl := some.inj (hj.symm.trans parent)
      rw [caller.running] at hb
      cases hb
  | @blocked p pid caller child links current need =>
    have hsame := SameTree.of_caller caller (by decide) links
    intro i hi
    obtain ⟨hself, hother⟩ := eq_update_iff.mp links
    suffices hk : ∃ j, (k.tasks j).parentPid = some i ∧ (k.tasks j).state ≠ .unused ∧
        waitMatches (k'.tasks i).waitForPid j by
      obtain ⟨j, hparent, hused, hmatch⟩ := hk
      exact ⟨j, (hsame.parentPid j).trans hparent, mt (hsame.unused j).mp hused, hmatch⟩
    by_cases hip : i = p
    · subst hip
      obtain ⟨j, hj, hparent, hmatch⟩ := child
      have hw : (k'.tasks i).waitForPid = pid := congrArg waitForPid hself
      exact ⟨j, hparent, hj.1, hw ▸ hmatch⟩
    · have hl := hother i hip
      rw [show (k'.tasks i).waitForPid = _ from congrArg waitForPid hl]
      exact h i ((congrArg state hl).symm.trans hi)
  | slept caller links current need =>
    exact h.of_stays (links ▸ update_rel (fun _ => .refl _) ⟨by simp, by simp⟩)
  | ticked links current need =>
    exact h.of_stays fun i => links ▸ stays_wakeSleeper _ _
  | scheduled ready links current =>
    exact h.of_stays (links ▸ update_rel (stays_readied k)
      ⟨by simp, fun hu => ⟨((stays_readied k _).child hu).1, by simp⟩⟩)
  | idled none_ready links current => exact h.of_stays (links ▸ stays_readied k)
  | created free links current need some_current =>
    exact h.of_stays (links ▸ update_rel (fun _ => .refl _) (.fresh free (by simp [freshLinks])))
  | first free links no_current current =>
    exact h.of_stays (links ▸ update_rel (fun _ => .refl _) (.fresh free (by simp)))

theorem AfterBoot.awaited (h : AfterBoot k) : Awaited k := by
  intro i hi
  by_cases hidle : i = idle
  · rw [hidle, h.idle_running] at hi
    cases hi
  · by_cases hinit : i = init
    · rw [hinit, h.init_ready] at hi
      cases hi
    · rw [h.free i hidle hinit] at hi
      cases hi

/-- After `do_schedule`, from any state: no blocked task has a dead child that it waits
for. -/
theorem reschedule_wakes (S : Services σ) (k : Kernel σ) (rsp : Nat) (i : Pid)
    (hi : ((reschedule S k rsp).tasks i).state = .blocked) (j : Pid)
    (hj : ((reschedule S k rsp).tasks j).state = .zombie)
    (hparent : ((reschedule S k rsp).tasks j).parentPid = some i) :
    ¬ waitMatches ((reschedule S k rsp).tasks i).waitForPid j := by
  have hsched := doSchedule_links S { k with savedRsp := rsp }
  unfold reschedule at hi hj hparent ⊢
  generalize doSchedule S { k with savedRsp := rsp } = k' at hsched hi hj hparent ⊢
  have hself : ∀ x, SelfChange (k.links x) (k'.links x) := by
    rcases hsched with ⟨next, hready, hlinks, -⟩ | ⟨-, hlinks, -⟩
    · exact selfChange_scheduled hready hlinks
    · exact fun x => by
        rw [hlinks]
        exact selfChange_readied k x
  have hsame := SameTree.of_selfChange hself
  have hblocked : k'.links i = readied k i := by
    rcases hsched with ⟨next, -, hlinks, -⟩ | ⟨-, hlinks, -⟩
    · have hin : i ≠ next := by
        rintro rfl
        cases (congrArg state (eq_update_iff.mp hlinks).1).symm.trans hi
      rw [hlinks, update_of_ne hin]
      rfl
    · rw [hlinks]
      rfl
  have hready : (readied k i).state = .blocked := (congrArg state hblocked).symm.trans hi
  obtain ⟨-, hw, hnone⟩ := readied_blocked hready
  have hwait : (k'.tasks i).waitForPid = (k.links i).waitForPid :=
    (congrArg waitForPid hblocked).trans hw
  rw [hwait]
  intro hmatch
  have hz : (k.tasks j).state = .zombie := (hsame.zombie j).mp hj
  have hp : (k.tasks j).parentPid = some i := (hsame.parentPid j).symm.trans hparent
  unfold zombieChild at hnone
  rw [List.any_eq_false] at hnone
  exact hnone j (List.mem_finRange j) (by simp [hz, hp, hmatch])

/-- After boot, in every state that any interleaving of calls and interrupts reaches,
every blocked task has a child it waits for that still occupies its slot; and right after
`do_schedule` none of the children that a blocked task waits for is dead. -/
theorem no_lost_wakeup (S : Services σ) (k₀ : Kernel σ) (hboot : AfterBoot k₀) (ops : List Op)
    (k : Kernel σ) (hrun : run (step S) k₀ ops = some k) :
    (∀ i, (k.tasks i).state = .blocked → ∃ j, (k.tasks j).parentPid = some i ∧
      (k.tasks j).state ≠ .unused ∧
      ((k.tasks i).waitForPid = -1 ∨ (k.tasks i).waitForPid = (j.val : Int))) ∧
    (∀ rsp i, ((reschedule S k rsp).tasks i).state = .blocked → ∀ j,
      ((reschedule S k rsp).tasks j).state = .zombie →
      ((reschedule S k rsp).tasks j).parentPid = some i →
      ¬ (((reschedule S k rsp).tasks i).waitForPid = -1 ∨
        ((reschedule S k rsp).tasks i).waitForPid = (j.val : Int))) := by
  have keep : ∀ (s : Kernel σ) (op : Op) (s' : Kernel σ), (∃ T, TreeInv s T) ∧ Awaited s →
      step S s op = some s' → (∃ T, TreeInv s' T) ∧ Awaited s' := by
    rintro s op s' ⟨⟨T, ht⟩, ha⟩ hstep
    have he := step_effect S hstep
    exact ⟨⟨_, ht.effect he⟩, ha.effect ht he⟩
  have hinv := run_invariant (step S) keep ⟨⟨_, hboot.treeInv⟩, hboot.awaited⟩ hrun
  refine ⟨?_, ?_⟩
  · intro i hi
    obtain ⟨j, hparent, hused, hmatch⟩ := hinv.2 i hi
    exact ⟨j, hparent, hused, hmatch.imp_right Eq.symm⟩
  · intro rsp i hi j hj hparent hmatch
    exact reschedule_wakes S k rsp i hi j hj hparent (hmatch.imp_right Eq.symm)

/-- Init forks, waits and blocks. -/
theorem no_lost_wakeup_wait : ∃ k, run (step bumpServices) bumpBoot
    [.reschedule 0, .fork 0, .wait (-1) 0] = some k ∧ (k.tasks init).state = .blocked ∧
      ∃ j, (k.tasks j).parentPid = some init ∧ (k.tasks j).state ≠ .unused := by
  have hstate : ((run (step bumpServices) bumpBoot [.reschedule 0, .fork 0, .wait (-1) 0]).map
      fun k => (k.tasks init).state) = some .blocked := by
    decide +kernel
  obtain ⟨k, hrun, hk⟩ := map_eq_some_iff.mp hstate
  obtain ⟨j, hparent, hused, -⟩ :=
    (no_lost_wakeup bumpServices bumpBoot afterBoot_bumpBoot _ k hrun).1 init hk
  exact ⟨k, hrun, hk, j, hparent, hused⟩

end Crius.Process
