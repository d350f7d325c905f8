import Crius.Process.ChildList
import Crius.Process.Effect

/-!
# The process tree

The process tree as a map from a task to the parent that has to reap it, with three
events: a fork adds a child, the death of a task hands its children to init (to idle,
once init is dead or is the task that dies), and a wait takes a child out. The intrusive
lists of the task table refine it: in every state that the system reaches after boot, the
list of each task holds exactly the children the tree gives it.

`init` is on no list: boot creates it without a fork, and idle, which never waits, stays
its parent.
-/
namespace Crius.Process

open Lib.Run Lib.Chain Function Option List Links

variable {σ : Type}

structure ProcTree where
  parentOf : Pid → Option Pid
  initAlive : Bool

namespace ProcTree

/-- No task has been forked yet. -/
def atBoot : ProcTree := ⟨fun _ => none, true⟩

/-- Who takes over the children of a task that dies. -/
def heir (T : ProcTree) (d : Pid) : Pid := if T.initAlive = true ∧ d ≠ init then init else idle

def apply (T : ProcTree) : Event → ProcTree
  | .quiet => T
  | .forked p c => { T with parentOf := Function.update T.parentOf c (some p) }
  | .died d =>
    { parentOf := fun c => if T.parentOf c = some d then some (T.heir d) else T.parentOf c
      initAlive := T.initAlive && decide (d ≠ init) }
  | .reaped c => { T with parentOf := Function.update T.parentOf c none }

end ProcTree

/-- The system together with the tree of the events so far. -/
def trackedStep (S : Services σ) (s : Kernel σ × ProcTree) (op : Op) :
    Option (Kernel σ × ProcTree) :=
  (step S s.1 op).map fun k => (k, s.2.apply (event S s.1 op))

/-- The state in which `kmain` enters its idle loop: idle runs, init has been created and
is ready, every other slot is free and no list has an entry. -/
structure AfterBoot (k : Kernel σ) : Prop where
  current : k.currentTask = some idle
  idle_running : (k.tasks idle).state = .running
  init_ready : (k.tasks init).state = .ready
  init_parent : (k.tasks init).parentPid = some idle
  free : ∀ i, i ≠ idle → i ≠ init → (k.tasks i).state = .unused
  no_child : ∀ i, (k.tasks i).firstChild = none

/-- The lists of the table are the lists of the tree. -/
structure TreeInv (k : Kernel σ) (T : ProcTree) : Prop where
  list : ∀ p, ∃ l, ChildList k.tasks p l ∧ ∀ c, c ∈ l ↔ T.parentOf c = some p
  child : ∀ c p, T.parentOf c = some p →
    (k.tasks c).state ≠ .unused ∧ (k.tasks c).parentPid = some p ∧ c ≠ idle ∧ c ≠ init
  parent : ∀ c p, T.parentOf c = some p → (k.tasks p).state.Alive
  idle_alive : (k.tasks idle).state.Alive
  init_kept : (k.tasks init).state ≠ .unused ∧ (k.tasks init).parentPid = some idle
  init_alive : T.initAlive = true ↔ (k.tasks init).state ≠ .zombie

variable {k k' : Kernel σ} {tasks : Pid → Task} {p c d : Pid} {T : ProcTree}

theorem AfterBoot.treeInv (h : AfterBoot k) : TreeInv k .atBoot where
  list p := ⟨[], h.no_child p, fun c => by simp [ProcTree.atBoot]⟩
  child c p hc := by simp [ProcTree.atBoot] at hc
  parent c p hc := by simp [ProcTree.atBoot] at hc
  idle_alive := by rw [h.idle_running]; decide
  init_kept := ⟨by rw [h.init_ready]; decide, h.init_parent⟩
  init_alive := by simp [ProcTree.atBoot, h.init_ready]

/-- A list only reads the links of its own nodes. -/
theorem childList_congr {tasks' : Pid → Task} {l : List Pid}
    (hfirst : (tasks' p).firstChild = (tasks p).firstChild)
    (hnext : ∀ i ∈ l, siblings tasks' i = siblings tasks i) (h : ChildList tasks p l) :
    ChildList tasks' p l := by
  unfold ChildList
  rw [hfirst]
  exact isChain_congr hnext h

/-! ## Steps that leave the tree alone -/

/-- The tables agree on all links and on who is free or dead. -/
structure SameTree (k k' : Kernel σ) : Prop where
  parentPid : ∀ i, (k'.tasks i).parentPid = (k.tasks i).parentPid
  firstChild : ∀ i, (k'.tasks i).firstChild = (k.tasks i).firstChild
  nextSibling : ∀ i, (k'.tasks i).nextSibling = (k.tasks i).nextSibling
  unused : ∀ i, (k'.tasks i).state = .unused ↔ (k.tasks i).state = .unused
  zombie : ∀ i, (k'.tasks i).state = .zombie ↔ (k.tasks i).state = .zombie

theorem SameTree.alive (h : SameTree k k') (i : Pid) :
    (k'.tasks i).state.Alive ↔ (k.tasks i).state.Alive := by
  unfold TaskState.Alive
  rw [ne_eq, ne_eq, h.unused, h.zombie]

theorem TreeInv.of_sameTree (h : TreeInv k T) (hs : SameTree k k') : TreeInv k' T where
  list p := by
    obtain ⟨l, hl, hmem⟩ := h.list p
    exact ⟨l, childList_congr (hs.firstChild p) (fun i _ => hs.nextSibling i) hl, hmem⟩
  child c p hc := by
    rw [ne_eq, hs.unused, hs.parentPid]
    exact h.child c p hc
  parent c p hc := (hs.alive p).mpr (h.parent c p hc)
  idle_alive := (hs.alive idle).mpr h.idle_alive
  init_kept := by
    rw [ne_eq, hs.unused, hs.parentPid]
    exact h.init_kept
  init_alive := by
    rw [ne_eq, hs.zombie]
    exact h.init_alive

/-- `l'` differs from `l` only as far as a task that stays alive can change by itself. -/
def SelfChange (l l' : Links) : Prop :=
  ∃ s w t, l' = { l with state := s, waitForPid := w, sleepUntil := t } ∧
    (s = l.state ∨ (s.Alive ∧ l.state.Alive))

theorem SelfChange.refl (l : Links) : SelfChange l l := ⟨_, _, _, rfl, .inl rfl⟩

theorem SelfChange.state {l l' : Links} (h : SelfChange l l') :
    l'.state = l.state ∨ (l'.state.Alive ∧ l.state.Alive) := by
  obtain ⟨s, w, t, rfl, hs⟩ := h
  exact hs

theorem SameTree.of_selfChange (h : ∀ i, SelfChange (k.links i) (k'.links i)) : SameTree k k' := by
  refine ⟨?_, ?_, ?_, ?_, ?_⟩
  · intro i
    obtain ⟨s, w, t, hl, -⟩ := h i
    exact congrArg Links.parentPid hl
  · intro i
    obtain ⟨s, w, t, hl, -⟩ := h i
    exact congrArg Links.firstChild hl
  · intro i
    obtain ⟨s, w, t, hl, -⟩ := h i
    exact congrArg Links.nextSibling hl
  · intro i
    rcases (h i).state with hs | ⟨hs', hs⟩
    · exact iff_of_eq (congrArg (· = TaskState.unused) hs)
    · exact iff_of_false hs'.1 hs.1
  · intro i
    rcases (h i).state with hs | ⟨hs', hs⟩
    · exact iff_of_eq (congrArg (· = TaskState.zombie) hs)
    · exact iff_of_false hs'.2 hs.2

theorem selfChange_readied (k : Kernel σ) (i : Pid) : SelfChange (k.links i) (readied k i) := by
  unfold readied
  simp only
  split_ifs <;> simp_all [SelfChange, TaskState.Alive]

theorem selfChange_wakeSleeper (now : Nat) (t : Task) :
    SelfChange t.links (wakeSleeper now t).links := by
  unfold wakeSleeper
  split
  · next h => exact ⟨.ready, _, 0, rfl, .inr ⟨by decide, by rw [links_state, h.1]; decide⟩⟩
  · exact .refl _

/-- The switch to a ready task. -/
theorem selfChange_scheduled {next : Pid} (hready : (readied k next).state = .ready)
    (hlinks : k'.links = update (readied k) next { readied k next with state := .running })
    (i : Pid) : SelfChange (k.links i) (k'.links i) := by
  rw [hlinks]
  refine update_rel (selfChange_readied k) ?_ i
  obtain ⟨s, w, t, hs, hstate⟩ := selfChange_readied k next
  rw [hs] at hready ⊢
  have halive : (k.links next).state.Alive := by
    rcases hstate with hstate | hstate
    · rw [← hstate, show s = .ready from hready]
      decide
    · exact hstate.2
  exact ⟨.running, w, t, rfl, .inr ⟨by decide, halive⟩⟩

/-- One task that runs changes by itself. -/
theorem SameTree.of_caller (hc : Calling k p) {s : TaskState}
    {w : Int} {t : Nat} (hs : s.Alive) (hlinks : k'.links = update k.links p
      { k.links p with state := s, waitForPid := w, sleepUntil := t }) : SameTree k k' := by
  have hrun : (k.links p).state = .running := hc.running
  exact .of_selfChange (hlinks ▸ update_rel (fun _ => .refl _)
    ⟨s, w, t, rfl, .inr ⟨hs, by rw [hrun]; decide⟩⟩)

/-! ## The four changes of the tree -/

namespace TreeInv

variable (h : TreeInv k T)

include h

theorem not_child_of_unused (hc : (k.tasks c).state = .unused) : T.parentOf c = none := by
  cases hp : T.parentOf c with
  | none => rfl
  | some p => exact absurd hc (h.child c p hp).1

theorem not_parent_of_dead (hp : ¬ (k.tasks p).state.Alive) (c : Pid) : T.parentOf c ≠ some p :=
  fun hc => hp (h.parent c p hc)

theorem unused_ne (hc : (k.tasks c).state = .unused) : c ≠ idle ∧ c ≠ init := by
  constructor
  · rintro rfl
    exact h.idle_alive.1 hc
  · rintro rfl
    exact h.init_kept.1 hc

/-- Only the slot `c` of a task that is not alive changes hands: what is left to show is
about `c` itself and about the lists. -/
theorem of_slot {T' : ProcTree} (hdead : ¬ (k.tasks c).state.Alive) (hidle : c ≠ idle)
    (hinit : c ≠ init) (hstate : ∀ i, i ≠ c → (k'.tasks i).state = (k.tasks i).state)
    (hparent : ∀ i, i ≠ c → (k'.tasks i).parentPid = (k.tasks i).parentPid)
    (hof : ∀ x, x ≠ c → T'.parentOf x = T.parentOf x) (hflag : T'.initAlive = T.initAlive)
    (hself : ∀ q, T'.parentOf c = some q → (k'.tasks c).state ≠ .unused ∧
      (k'.tasks c).parentPid = some q ∧ (k'.tasks q).state.Alive)
    (hlist : ∀ q, ∃ l, ChildList k'.tasks q l ∧ ∀ x, x ∈ l ↔ T'.parentOf x = some q) :
    TreeInv k' T' where
  list := hlist
  child x q hx := by
    by_cases hxc : x = c
    · subst hxc
      exact ⟨(hself q hx).1, (hself q hx).2.1, hidle, hinit⟩
    · rw [hof x hxc] at hx
      rw [hstate x hxc, hparent x hxc]
      exact h.child x q hx
  parent x q hx := by
    by_cases hxc : x = c
    · subst hxc
      exact (hself q hx).2.2
    · rw [hof x hxc] at hx
      have hqc : q ≠ c := fun he => h.not_parent_of_dead hdead x (he ▸ hx)
      rw [hstate q hqc]
      exact h.parent x q hx
  idle_alive := by
    rw [hstate _ hidle.symm]
    exact h.idle_alive
  init_kept := by
    rw [hstate _ hinit.symm, hparent _ hinit.symm]
    exact h.init_kept
  init_alive := by
    rw [hflag, hstate _ hinit.symm]
    exact h.init_alive

/-- A free slot is taken by a task that nobody has forked. -/
theorem of_fresh {l : Links} (hfree : (k.tasks c).state = .unused) (hfirst : l.firstChild = none)
    (hlinks : k'.links = update k.links c l) : TreeInv k' T := by
  obtain ⟨hc, hother⟩ := eq_update_iff.mp hlinks
  have hnone := h.not_child_of_unused hfree
  have hdead : ¬ (k.tasks c).state.Alive := fun ha => ha.1 hfree
  obtain ⟨hidle, hinit⟩ := h.unused_ne hfree
  have hstate (i : Pid) (hi : i ≠ c) : (k'.tasks i).state = (k.tasks i).state :=
    congrArg state (hother i hi)
  have hparent (i : Pid) (hi : i ≠ c) : (k'.tasks i).parentPid = (k.tasks i).parentPid :=
    congrArg parentPid (hother i hi)
  refine h.of_slot hdead hidle hinit hstate hparent (fun _ _ => rfl) rfl ?_ ?_
  · intro q hq
    rw [hnone] at hq
    cases hq
  · intro p
    obtain ⟨m, hm, hmem⟩ := h.list p
    have hcm : c ∉ m := fun hc => by simp [(hmem c).mp hc] at hnone
    by_cases hp : p = c
    · subst hp
      refine ⟨[], (congrArg firstChild hc).trans hfirst, fun x => ?_⟩
      simp [h.not_parent_of_dead hdead x]
    · refine ⟨m, childList_congr (congrArg firstChild (hother p hp)) ?_ hm, hmem⟩
      intro i hi
      exact congrArg nextSibling (hother i (fun he => hcm (he ▸ hi)))

theorem of_forked (hp : (k.tasks p).state.Alive) (hfree : (k.tasks c).state = .unused)
    (hlinks : k'.links = update
      (update k.links c (freshLinks (some p) (k.tasks p).firstChild)) p
      { k.links p with firstChild := some c }) : TreeInv k' (T.apply (.forked p c)) := by
  have hpc : p ≠ c := by
    rintro rfl
    exact hp.1 hfree
  obtain ⟨hlp, hother⟩ := eq_update_iff.mp hlinks
  have hlc : (k'.tasks c).links = freshLinks (some p) (k.tasks p).firstChild :=
    (hother c hpc.symm).trans (update_self ..)
  have hlo (i : Pid) (hip : i ≠ p) (hic : i ≠ c) : (k'.tasks i).links = (k.tasks i).links :=
    (hother i hip).trans (update_of_ne hic ..)
  have hkept (i : Pid) (hi : i ≠ c) : (k'.tasks i).links =
      { (k.tasks i).links with firstChild := (k'.tasks i).firstChild } := by
    by_cases hip : i = p
    · subst hip
      rw [show (k'.tasks i).firstChild = some c from congrArg firstChild hlp]
      exact hlp
    · rw [← hlo i hip hi]
      rfl
  have hstate (i : Pid) (hi : i ≠ c) : (k'.tasks i).state = (k.tasks i).state :=
    congrArg state (hkept i hi)
  have hparent (i : Pid) (hi : i ≠ c) : (k'.tasks i).parentPid = (k.tasks i).parentPid :=
    congrArg parentPid (hkept i hi)
  have hnext (i : Pid) (hi : i ≠ c) : siblings k'.tasks i = siblings k.tasks i :=
    congrArg nextSibling (hkept i hi)
  have hnone := h.not_child_of_unused hfree
  have hdead : ¬ (k.tasks c).state.Alive := fun ha => ha.1 hfree
  obtain ⟨hidle, hinit⟩ := h.unused_ne hfree
  have hof (x : Pid) (hx : x ≠ c) : (T.apply (.forked p c)).parentOf x = T.parentOf x :=
    update_of_ne hx _ _
  have hofc : (T.apply (.forked p c)).parentOf c = some p := update_self _ _ _
  refine h.of_slot hdead hidle hinit hstate hparent hof rfl ?_ ?_
  · intro q hq
    cases hofc.symm.trans hq
    have hst : (k'.tasks c).state = .ready := congrArg state hlc
    refine ⟨by rw [hst]; decide, congrArg parentPid hlc, ?_⟩
    rw [hstate p hpc]
    exact hp
  · intro q
    obtain ⟨m, hm, hmem⟩ := h.list q
    have hcm : c ∉ m := fun hc => by simp [(hmem c).mp hc] at hnone
    have hkeep : ∀ i ∈ m, siblings k'.tasks i = siblings k.tasks i :=
      fun i hi => hnext i (fun he => hcm (he ▸ hi))
    by_cases hqp : q = p
    · subst hqp
      refine ⟨c :: m, ⟨congrArg firstChild hlp, ?_⟩, fun x => ?_⟩
      · have hnc : siblings k'.tasks c = (k.tasks q).firstChild := congrArg nextSibling hlc
        rw [hnc]
        exact isChain_congr hkeep hm
      · by_cases hx : x = c
        · subst hx
          simp [hofc]
        · simp [hx, hof x hx, hmem]
    · by_cases hqc : q = c
      · subst hqc
        refine ⟨[], congrArg firstChild hlc, fun x => ?_⟩
        by_cases hx : x = q
        · subst hx
          simp [hofc, hpc]
        · simp [hof x hx, h.not_parent_of_dead hdead x]
      · refine ⟨m, childList_congr (congrArg firstChild (hlo q hqp hqc)) hkeep hm, ?_⟩
        intro x
        by_cases hx : x = c
        · subst hx
          simp [hofc, hcm, Ne.symm hqp]
        · rw [hof x hx, hmem]

theorem newParent_eq (d : Pid) : newParent k.tasks d = T.heir d := by
  have hinit : ((k.tasks init).state = .unused ∨ (k.tasks init).state = .zombie) ↔
      ¬ T.initAlive = true := by
    rw [h.init_alive, not_not, or_iff_right h.init_kept.1]
  unfold newParent ProcTree.heir
  simp only [hinit]
  by_cases ha : T.initAlive = true
  · by_cases hdi : d = init
    · simp [ha, hdi]
    · simp [ha, hdi, Ne.symm hdi]
  · simp [ha]

end TreeInv

theorem ProcTree.heir_mem (T : ProcTree) (d : Pid) : T.heir d = init ∨ T.heir d = idle := by
  unfold heir
  split
  · exact .inl rfl
  · exact .inr rfl

namespace TreeInv

variable (h : TreeInv k T)

include h

/-- The heir is alive and on no list. -/
theorem heir_ok (hd : d ≠ idle) : (k.tasks (T.heir d)).state.Alive ∧ T.heir d ≠ d ∧
      ∀ p, T.parentOf (T.heir d) ≠ some p := by
  refine ⟨?_, ?_, fun p hp => ?_⟩
  · unfold ProcTree.heir
    split
    · next hi => exact ⟨h.init_kept.1, h.init_alive.mp hi.1⟩
    · exact h.idle_alive
  · rw [← h.newParent_eq d]
    exact newParent_ne _ hd
  · have hc := h.child _ p hp
    rcases T.heir_mem d with he | he
    · exact hc.2.2.2 he
    · exact hc.2.2.1 he

/-- What `task_reparent_children` makes of the table in a state of the invariant. -/
theorem reparent (hd : d ≠ idle) : ∃ (tasks : Pid → Task) (l m : List Pid),
      taskReparentChildren k.tasks d = some tasks ∧
      (∀ c, c ∈ l ↔ T.parentOf c = some d) ∧ (∀ c, c ∈ m ↔ T.parentOf c = some (T.heir d)) ∧
      ChildList tasks (T.heir d) (l.reverse ++ m) ∧ (tasks d).firstChild = none ∧
      (∀ i, i ≠ T.heir d → i ≠ d → (tasks i).firstChild = (k.tasks i).firstChild) ∧
      (∀ i, i ∉ l → siblings tasks i = siblings k.tasks i) ∧
      (∀ i, (tasks i).parentPid = if i ∈ l then some (T.heir d) else (k.tasks i).parentPid) := by
  obtain ⟨-, hne, hfree⟩ := h.heir_ok hd
  obtain ⟨l, hl, hlmem⟩ := h.list d
  obtain ⟨m, hm, hmmem⟩ := h.list (T.heir d)
  have hnp := h.newParent_eq d
  have hdisj : l.Disjoint m := by
    intro x hxl hxm
    have := ((hlmem x).mp hxl).symm.trans ((hmmem x).mp hxm)
    exact hne (some.inj this).symm
  have hnl : newParent k.tasks d ∉ l := by
    rw [hnp, hlmem]
    exact hfree d
  obtain ⟨tasks, hsome, hlist, hfirst, mid, hhanded, rfl⟩ :=
    taskReparentChildren_spec hd hl (hnp ▸ hm) hdisj hnl
  rw [hnp] at hlist hhanded
  refine ⟨setFirstChild mid d none, l, m, hsome, hlmem, hmmem, hlist, hfirst, ?_, ?_, ?_⟩
  · intro i hin hid
    rw [firstChild_setFirstChild, if_neg hid]
    by_cases hil : i ∈ l
    · rw [hhanded.moved i hil]
    · rw [hhanded.other i hil hin]
  · intro i hil
    rw [siblings_setFirstChild]
    unfold siblings
    by_cases hin : i = T.heir d
    · rw [hin, hhanded.adopter]
    · rw [hhanded.other i hil hin]
  · intro i
    have hparent : (setFirstChild mid d none i).parentPid = (mid i).parentPid := by
      unfold setFirstChild
      by_cases hid : i = d
      · subst hid
        simp
      · rw [update_of_ne hid]
    rw [hparent]
    split
    · next hil => rw [hhanded.moved i hil]
    · next hil =>
      by_cases hin : i = T.heir d
      · rw [hin, hhanded.adopter]
      · rw [hhanded.other i hil hin]

theorem of_died (hd : d ≠ idle) (hsome : taskReparentChildren k.tasks d = some tasks)
    (hlinks : k'.links = update (fun i => (tasks i).links) d
      { (tasks d).links with state := .zombie }) : TreeInv k' (T.apply (.died d)) := by
  obtain ⟨tasks', l, m, hsome', hl, hm, hlist, hfirstd, hfirst, hnext, hparent⟩ := h.reparent hd
  obtain rfl : tasks' = tasks := some.inj (hsome'.symm.trans hsome)
  obtain ⟨halive, hne, hfree⟩ := h.heir_ok hd
  have hsame := SameButLinks.taskReparentChildren hsome
  obtain ⟨hld, hlo⟩ := eq_update_iff.mp hlinks
  have hstated : (k'.tasks d).state = .zombie := congrArg state hld
  have hstate (i : Pid) (hi : i ≠ d) : (k'.tasks i).state = (k.tasks i).state :=
    (congrArg state (hlo i hi)).trans (hsame.state i)
  have hkept (i : Pid) : (k'.tasks i).links =
      { (tasks' i).links with state := (k'.tasks i).state } := by
    by_cases hi : i = d
    · subst hi
      rw [hstated]
      exact hld
    · rw [← hlo i hi]
      rfl
  have hparent' (i : Pid) : (k'.tasks i).parentPid = (tasks' i).parentPid :=
    congrArg parentPid (hkept i)
  have hfirst' (i : Pid) : (k'.tasks i).firstChild = (tasks' i).firstChild :=
    congrArg firstChild (hkept i)
  have hnext' (i : Pid) : siblings k'.tasks i = siblings tasks' i :=
    congrArg nextSibling (hkept i)
  have hof (x : Pid) : (T.apply (.died d)).parentOf x =
      if T.parentOf x = some d then some (T.heir d) else T.parentOf x := rfl
  have hkeep {x q : Pid} (hq : q ≠ T.heir d) (hx : (T.apply (.died d)).parentOf x = some q) :
      T.parentOf x = some q ∧ q ≠ d := by
    rw [hof] at hx
    split at hx
    · exact absurd (some.inj hx).symm hq
    · next hxd => exact ⟨hx, fun he => hxd (he ▸ hx)⟩
  constructor
  · intro q
    by_cases hq : q = T.heir d
    · subst hq
      refine ⟨l.reverse ++ m, childList_congr (hfirst' _) (fun i _ => hnext' i) hlist, fun x => ?_⟩
      rw [hof, mem_append, mem_reverse, hl, hm]
      split
      · next hx => simp [hx]
      · next hx => simp [hx]
    · by_cases hqd : q = d
      · subst hqd
        refine ⟨[], (hfirst' q).trans hfirstd, fun x => ?_⟩
        simp only [not_mem_nil, false_iff]
        exact fun hx => (hkeep hq hx).2 rfl
      · obtain ⟨n, hn, hmem⟩ := h.list q
        refine ⟨n, childList_congr ((hfirst' q).trans (hfirst q hq hqd)) ?_ hn, fun x => ?_⟩
        · intro i hi
          rw [hnext', hnext]
          intro hil
          exact hqd (some.inj (((hmem i).mp hi).symm.trans ((hl i).mp hil)))
        · rw [hmem]
          constructor
          · intro hx
            rw [hof, hx, if_neg]
            exact fun he => hqd (some.inj he)
          · exact fun hx => (hkeep hq hx).1
  · intro x q hx
    have hunused : (k.tasks x).state ≠ .unused → (k'.tasks x).state ≠ .unused := by
      intro hx'
      by_cases hxd : x = d
      · rw [hxd, hstated]
        decide
      · rwa [hstate x hxd]
    rw [hparent', hparent]
    by_cases hq : q = T.heir d
    · rw [hof] at hx
      split at hx
      · next hxd =>
        obtain ⟨hu, -, hi⟩ := h.child x d hxd
        rw [if_pos ((hl x).mpr hxd)]
        exact ⟨hunused hu, hx, hi⟩
      · next hxd =>
        obtain ⟨hu, hp, hi⟩ := h.child x q hx
        rw [if_neg (fun hil => hxd ((hl x).mp hil))]
        exact ⟨hunused hu, hp, hi⟩
    · obtain ⟨hxq, hqd⟩ := hkeep hq hx
      obtain ⟨hu, hp, hi⟩ := h.child x q hxq
      rw [if_neg (fun hil => hqd (some.inj (hxq.symm.trans ((hl x).mp hil))))]
      exact ⟨hunused hu, hp, hi⟩
  · intro x q hx
    by_cases hq : q = T.heir d
    · rw [hq, hstate _ hne]
      exact halive
    · obtain ⟨hxq, hqd⟩ := hkeep hq hx
      rw [hstate q hqd]
      exact h.parent x q hxq
  · rw [hstate _ hd.symm]
    exact h.idle_alive
  · have hil : init ∉ l := fun hil => (h.child _ _ ((hl _).mp hil)).2.2.2 rfl
    rw [hparent', hparent, if_neg hil]
    refine ⟨?_, h.init_kept.2⟩
    by_cases hdi : init = d
    · rw [hdi, hstated]
      decide
    · rw [hstate _ hdi]
      exact h.init_kept.1
  · show (T.initAlive && decide (d ≠ init)) = true ↔ _
    by_cases hdi : d = init
    · rw [hdi] at hstated
      simp [hdi, hstated]
    · rw [hstate _ (Ne.symm hdi), ← h.init_alive]
      simp [hdi]

theorem of_reaped (hc : Calling k p) (hzombie : (k.tasks c).state = .zombie)
    (hparent : (k.tasks c).parentPid = some p) (hsome : taskRemoveChild k.tasks p c = some tasks)
    (hlinks : k'.links = update (fun i => (tasks i).links) c
      ⟨.unused, none, none, none, -1, (tasks c).sleepUntil⟩) :
    TreeInv k' (T.apply (.reaped c)) := by
  obtain ⟨l, hl, hlmem⟩ := h.list p
  obtain ⟨tasks', hsome', hlist, hunlinked⟩ := taskRemoveChild_spec c hl
  obtain rfl : tasks' = tasks := some.inj (hsome'.symm.trans hsome)
  have hsame := SameButLinks.taskRemoveChild hsome
  have hpc : p ≠ c := by
    rintro rfl
    rw [hc.running] at hzombie
    cases hzombie
  have hci : c ≠ idle := by
    rintro rfl
    exact h.idle_alive.2 hzombie
  have hcinit : c ≠ init := by
    rintro rfl
    exact hc.not_idle (some.inj (hparent.symm.trans h.init_kept.2))
  have hdead : ¬ (k.tasks c).state.Alive := fun ha => ha.2 hzombie
  obtain ⟨hlc, hlo⟩ := eq_update_iff.mp hlinks
  have hstate (i : Pid) (hi : i ≠ c) : (k'.tasks i).state = (k.tasks i).state :=
    (congrArg state (hlo i hi)).trans (hsame.state i)
  have hparent' (i : Pid) (hi : i ≠ c) : (k'.tasks i).parentPid = (k.tasks i).parentPid :=
    (congrArg parentPid (hlo i hi)).trans (taskRemoveChild_parentPid hsome i)
  have hof (x : Pid) (hx : x ≠ c) : (T.apply (.reaped c)).parentOf x = T.parentOf x :=
    update_of_ne hx _ _
  have hofc : (T.apply (.reaped c)).parentOf c = none := update_self _ _ _
  have hold {x q : Pid} (hx : (T.apply (.reaped c)).parentOf x = some q) :
      x ≠ c ∧ T.parentOf x = some q := by
    have hxc : x ≠ c := fun he => by rw [he, hofc] at hx; cases hx
    exact ⟨hxc, (hof x hxc).symm.trans hx⟩
  have hmem (q : Pid) (m : List Pid) (hm : ∀ x, x ∈ m ↔ T.parentOf x = some q ∧ x ≠ c) (x : Pid) :
      x ∈ m ↔ (T.apply (.reaped c)).parentOf x = some q := by
    rw [hm]
    constructor
    · rintro ⟨hx, hxc⟩
      rwa [hof x hxc]
    · exact fun hx => ⟨(hold hx).2, (hold hx).1⟩
  refine h.of_slot hdead hci hcinit hstate hparent' hof rfl ?_ ?_
  · intro q hq
    rw [hofc] at hq
    cases hq
  · intro q
    by_cases hqp : q = p
    · subst hqp
      refine ⟨l.erase c, childList_congr (congrArg firstChild (hlo q hpc)) ?_ hlist, ?_⟩
      · intro i hi
        have hic : i ≠ c := fun he => (isChain_nodup hl).not_mem_erase (he ▸ hi)
        exact congrArg nextSibling (hlo i hic)
      · refine hmem q _ fun x => ?_
        rw [(isChain_nodup hl).mem_erase_iff, hlmem, and_comm]
    · by_cases hqc : q = c
      · subst hqc
        refine ⟨[], congrArg firstChild hlc, fun x => ?_⟩
        simp only [not_mem_nil, false_iff]
        exact fun hx => h.not_parent_of_dead hdead x (hold hx).2
      · obtain ⟨m, hm, hmmem⟩ := h.list q
        have hcm : c ∉ m := by
          intro hcm
          have hq := (h.child c q ((hmmem c).mp hcm)).2.1
          exact hqp (some.inj (hq.symm.trans hparent))
        refine ⟨m, childList_congr ?_ ?_ hm, ?_⟩
        · exact (congrArg firstChild (hlo q hqc)).trans (hunlinked.first q hqp)
        · intro i hi
          have hic : i ≠ c := fun he => hcm (he ▸ hi)
          have hil : i ∉ l := fun hil =>
            hqp (some.inj (((hmmem i).mp hi).symm.trans ((hlmem i).mp hil)))
          exact (congrArg nextSibling (hlo i hic)).trans (hunlinked.sibling i hil hic)
        · refine hmem q m fun x => ?_
          rw [hmmem]
          refine ⟨fun hx => ⟨hx, ?_⟩, fun hx => hx.1⟩
          rintro rfl
          exact hcm ((hmmem x).mpr hx)

end TreeInv

theorem Calling.alive (h : Calling k p) : (k.tasks p).state.Alive := by
  rw [h.running]
  decide

/-- One step: the lists follow the tree. -/
theorem TreeInv.effect {e : Event} (h : TreeInv k T) (he : Effect k k' e) :
    TreeInv k' (T.apply e) := by
  cases he with
  | same links current need =>
    refine h.of_sameTree (.of_selfChange fun i => ?_)
    rw [links]
    exact .refl _
  | forked caller free links current need => exact h.of_forked caller.alive free links
  | died not_idle alive reparent links current need => exact h.of_died not_idle reparent links
  | reaped caller zombie parent remove links current need =>
    exact h.of_reaped caller zombie parent remove links
  | blocked caller child links current need =>
    exact h.of_sameTree (.of_caller caller (by decide) links)
  | slept caller links current need =>
    exact h.of_sameTree (.of_caller caller (by decide) links)
  | ticked links current need =>
    refine h.of_sameTree (.of_selfChange fun i => ?_)
    rw [links]
    exact selfChange_wakeSleeper _ _
  | scheduled ready links current =>
    exact h.of_sameTree (.of_selfChange (selfChange_scheduled ready links))
  | idled none_ready links current =>
    refine h.of_sameTree (.of_selfChange fun i => ?_)
    rw [links]
    exact selfChange_readied k i
  | created free links current need some_current => exact h.of_fresh free rfl links
  | first free links no_current current => exact h.of_fresh free rfl links

theorem TreeInv.trackedStep (S : Services σ) {s s' : Kernel σ × ProcTree} {op : Op}
    (h : TreeInv s.1 s.2) (hs : trackedStep S s op = some s') : TreeInv s'.1 s'.2 := by
  obtain ⟨k, hstep, rfl⟩ := map_eq_some_iff.mp hs
  exact h.effect (step_effect S hstep)

/-- In a state of the invariant no walk along a list runs on: every enabled step is taken. -/
theorem TreeInv.step_isSome (h : TreeInv k T) (S : Services σ) {op : Op} (he : Enabled k op) :
    (step S k op).isSome := by
  have hdie (d : Pid) (code : Int) (hd : d ≠ idle) : (die S k d code).isSome := by
    obtain ⟨tasks, l, m, hsome, -⟩ := h.reparent hd
    unfold die
    rw [hsome]
    rfl
  have hcall (hop : step S k op = if k.caller.isSome then syscall S k op else none)
      (hcaller : k.caller.isSome) (hsys : ∀ p, Calling k p → (syscall S k op).isSome) :
      (step S k op).isSome := by
    obtain ⟨p, hp⟩ := calling_of_caller hcaller
    rw [hop, if_pos hcaller]
    exact hsys p hp
  cases op with
  | tick => rfl
  | reschedule rsp => rfl
  | create name entry => rfl
  | fork frameRip => exact hcall rfl he fun _ _ => rfl
  | exec path argv => exact hcall rfl he fun _ _ => rfl
  | sleep ms => exact hcall rfl he fun _ _ => rfl
  | yield => exact hcall rfl he fun _ _ => rfl
  | setPriority id priority => exact hcall rfl he fun _ _ => rfl
  | exit code =>
    refine hcall rfl he fun p hp => ?_
    unfold syscall taskExitCode
    rw [hp.current]
    simpa using hdie p code hp.not_idle
  | kill id =>
    refine hcall rfl he fun p hp => ?_
    have hkill : (taskKill S k id).isSome := by
      unfold taskKill
      split
      · dsimp only
        split_ifs with h1 h2 h3
        · rfl
        · rfl
        · rfl
        · simpa using hdie _ _ h2
      · rfl
    show ((taskKill S k id).map _).isSome
    rwa [isSome_map]
  | wait pid options =>
    refine hcall rfl he fun p hp => ?_
    have hwait : (taskWait S k pid options).isSome := by
      unfold taskWait
      rw [hp.current]
      simp only
      split
      · next c hc =>
        obtain ⟨l, hl, -⟩ := h.list p
        obtain ⟨tasks, hsome, -⟩ := taskRemoveChild_spec c hl
        unfold reap
        rw [hsome]
        rfl
      · split_ifs <;> rfl
    show ((taskWait S k pid options).map _).isSome
    rwa [isSome_map]

/-- Boot leaves the process tables as `AfterBoot` says, when both tasks can be created. -/
theorem afterBoot_boot (S : Services σ) {entry : Nat} (hfree : ∀ i, (k.tasks i).state = .unused)
    (hchild : ∀ i, (k.tasks i).firstChild = none)
    (hidle : (taskCreateCurrent S k [105, 100, 108, 101]).1 = true)
    (hinit : (boot S k entry).1.isSome) : AfterBoot (boot S k entry).2 := by
  obtain ⟨hlinks, hcur⟩ := taskCreateCurrent_links S hidle
  unfold boot at hinit ⊢
  generalize (taskCreateCurrent S k [105, 100, 108, 101]).2 = k1 at hlinks hcur hinit ⊢
  obtain ⟨hidle1, hother⟩ := eq_update_iff.mp hlinks
  have hne : init ≠ idle := by decide
  have halloc : allocTask k1.tasks = some init := by
    have h0 : (k1.tasks idle).state = .running := congrArg state hidle1
    have h1 : (k1.tasks init).state = .unused :=
      (congrArg state (hother init hne)).trans (hfree init)
    have hlist : finRange maxTasks = idle :: init :: (finRange maxTasks).drop 2 := by
      decide
    unfold allocTask
    rw [hlist, find?_cons_of_neg (by simp [h0]), find?_cons_of_pos (by simp [h1])]
  rcases taskCreateArgs_cases S k1 [105, 110, 105, 116] entry 0 with
    heq | ⟨c, ok, k2, hslot, hacq, ⟨-, heq⟩ | ⟨-, hnone, -⟩ | ⟨-, -, heq⟩⟩
  · rw [heq] at hinit
    cases hinit
  · rw [heq] at hinit
    cases hinit
  · rw [hcur] at hnone
    cases hnone
  · obtain rfl : c = init := Option.some.inj (hslot.symm.trans halloc)
    have hlinks2 := links_modify_update k2 init (freshTask (some idle) entry 0)
    have hcur2 := hacq.memStep.currentTask.trans hcur
    rw [hacq.memStep.sameSched.links] at hlinks2
    rw [heq, hcur]
    obtain ⟨hinit2, hother2⟩ := eq_update_iff.mp hlinks2
    have hidle2 := (hother2 idle hne.symm).trans hidle1
    refine ⟨hcur2, congrArg state hidle2, congrArg state hinit2,
      congrArg parentPid hinit2, ?_, ?_⟩
    · intro i hi hii
      exact (congrArg state ((hother2 i hii).trans (hother i hi))).trans (hfree i)
    · intro i
      by_cases hii : i = init
      · rw [hii]
        exact congrArg firstChild hinit2
      · by_cases hi : i = idle
        · rw [hi]
          exact congrArg firstChild hidle2
        · exact (congrArg firstChild ((hother2 i hii).trans (hother i hi))).trans (hchild i)

theorem afterBoot_bumpBoot : AfterBoot bumpBoot :=
  afterBoot_boot bumpServices (fun _ => rfl) (fun _ => rfl) rfl rfl

/-- After boot, in every state that any interleaving of calls and interrupts reaches: the
list of each task ends, has no repetition and holds exactly the tasks that the tree of
forks, deaths and waits gives to it; each of them is in use and names its parent; no task
is on two lists; and the walks of the next call along the lists end, too. -/
theorem child_lists (S : Services σ) (k₀ : Kernel σ) (hboot : AfterBoot k₀) (ops : List Op)
    (k : Kernel σ) (T : ProcTree)
    (hrun : run (trackedStep S) (k₀, ProcTree.atBoot) ops = some (k, T)) :
    (∀ p, ∃ l, ChildList k.tasks p l ∧ l.Nodup ∧ (∀ c, c ∈ l ↔ T.parentOf c = some p) ∧
      ∀ c ∈ l, (k.tasks c).state ≠ .unused ∧ (k.tasks c).parentPid = some p) ∧
    (∀ p q l m, p ≠ q → ChildList k.tasks p l → ChildList k.tasks q m → l.Disjoint m) ∧
    (∀ op, Enabled k op → (step S k op).isSome) := by
  have hinv : TreeInv k T := run_invariant (trackedStep S)
    (fun _ _ _ h hs => TreeInv.trackedStep S h hs) hboot.treeInv hrun
  refine ⟨?_, ?_, fun op he => hinv.step_isSome S he⟩
  · intro p
    obtain ⟨l, hl, hmem⟩ := hinv.list p
    refine ⟨l, hl, isChain_nodup hl, hmem, fun c hc => ?_⟩
    obtain ⟨hu, hp, -⟩ := hinv.child c p ((hmem c).mp hc)
    exact ⟨hu, hp⟩
  · intro p q l m hpq hl hm x hxl hxm
    obtain ⟨l', hl', hlmem⟩ := hinv.list p
    obtain ⟨m', hm', hmmem⟩ := hinv.list q
    obtain rfl := isChain_unique hl hl'
    obtain rfl := isChain_unique hm hm'
    exact hpq (some.inj (((hlmem x).mp hxl).symm.trans ((hmmem x).mp hxm)))

/-- Init runs and forks: slot 2 is on its list. -/
theorem child_lists_fork : ∃ k T, run (trackedStep bumpServices) (bumpBoot, ProcTree.atBoot)
    [.reschedule 0, .fork 0] = some (k, T) ∧ ∃ l, ChildList k.tasks init l ∧
      (⟨2, by decide⟩ : Pid) ∈ l := by
  have hparent : ((run (trackedStep bumpServices) (bumpBoot, ProcTree.atBoot)
      [.reschedule 0, .fork 0]).map fun s => s.2.parentOf ⟨2, by decide⟩) = some (some init) := by
    decide +kernel
  obtain ⟨⟨k, T⟩, hrun, hT⟩ := map_eq_some_iff.mp hparent
  obtain ⟨l, hl, -, hmem, -⟩ := (child_lists bumpServices bumpBoot afterBoot_bumpBoot
    [.reschedule 0, .fork 0] k T hrun).1 init
  exact ⟨k, T, hrun, l, hl, (hmem _).mpr hT⟩

end Crius.Process
