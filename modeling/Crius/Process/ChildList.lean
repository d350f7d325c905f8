import Crius.Lib.Chain
import Crius.Process.Lifecycle

/-!
# The child lists

What the two functions of `process/process.c` that edit child lists do to them:
`task_reparent_children` moves a whole list to another parent, one node at a time, and
`task_remove_child` unlinks one node. Both walk the list they edit; that the walk ends is
part of the statements.
-/
namespace Crius.Process

open Lib.Chain Option

def siblings (tasks : Pid → Task) : Pid → Option Pid := fun i => (tasks i).nextSibling

/-- The list of children that the links of `p` describe. -/
def ChildList (tasks : Pid → Task) (p : Pid) (l : List Pid) : Prop :=
  IsChain (siblings tasks) (tasks p).firstChild l

/-- The table after the nodes of `l` have been handed to `np`: they have a new parent and
a new successor, `np` has a new first child, and nothing else changes. -/
structure Handed (np : Pid) (l : List Pid) (tasks tasks' : Pid → Task) : Prop where
  other : ∀ i, i ∉ l → i ≠ np → tasks' i = tasks i
  adopter : tasks' np = { tasks np with firstChild := (tasks' np).firstChild }
  moved : ∀ i ∈ l, tasks' i = { tasks i with
    parentPid := some np, nextSibling := (tasks' i).nextSibling }

theorem Handed.refl (np : Pid) (tasks : Pid → Task) : Handed np [] tasks tasks :=
  ⟨fun _ _ _ => rfl, rfl, fun _ hi => absurd hi List.not_mem_nil⟩

section Links

variable (tasks : Pid → Task) (i j : Pid) (link : Option Pid)

@[simp] theorem siblings_setFirstChild : siblings (setFirstChild tasks i link) = siblings tasks := by
  funext j
  by_cases h : j = i
  · subst h
    simp [siblings, setFirstChild]
  · simp [siblings, setFirstChild, h]

@[simp] theorem firstChild_setFirstChild : (setFirstChild tasks i link j).firstChild =
    if j = i then link else (tasks j).firstChild := by
  by_cases h : j = i
  · subst h
    simp [setFirstChild]
  · simp [setFirstChild, h]

@[simp] theorem siblings_setNextSibling : siblings (setNextSibling tasks i link) j =
    if j = i then link else siblings tasks j := by
  by_cases h : j = i
  · subst h
    simp [siblings, setNextSibling]
  · simp [siblings, setNextSibling, h]

@[simp] theorem firstChild_setNextSibling : (setNextSibling tasks i link j).firstChild =
    (tasks j).firstChild := by
  by_cases h : j = i
  · subst h
    simp [setNextSibling]
  · simp [setNextSibling, h]

end Links

variable {l m : List Pid} {tasks' tasks : Pid → Task} {i child : Pid} {n : Nat} {head : Option Pid}

section HandOver

variable {np child : Pid} {tasks : Pid → Task}

theorem handOver_adopter (h : np ≠ child) :
    handOver np tasks child np = { tasks np with firstChild := some child } := by
  simp [handOver, setFirstChild, h]

theorem handOver_child (h : np ≠ child) : handOver np tasks child child =
    { tasks child with parentPid := some np, nextSibling := (tasks np).firstChild } := by
  simp [handOver, setFirstChild, h.symm]

theorem handOver_other (hi : i ≠ child) (hnp : i ≠ np) : handOver np tasks child i = tasks i := by
  simp [handOver, setFirstChild, hi, hnp]

theorem siblings_handOver (hi : i ≠ child) :
    siblings (handOver np tasks child) i = siblings tasks i := by
  unfold siblings
  by_cases hnp : i = np
  · subst hnp
    rw [handOver_adopter hi]
  · rw [handOver_other hi hnp]

theorem Handed.cons (hnp : np ∉ child :: l) (hc : child ∉ l)
    (h : Handed np l (handOver np tasks child) tasks') : Handed np (child :: l) tasks tasks' := by
  have hne : np ≠ child := fun he => hnp (he ▸ List.mem_cons_self)
  refine ⟨?_, ?_, ?_⟩
  · intro i hi hinp
    rw [List.mem_cons, not_or] at hi
    rw [h.other i hi.2 hinp, handOver_other hi.1 hinp]
  · have hadopter := h.adopter
    rw [handOver_adopter hne] at hadopter
    exact hadopter
  · intro i hi
    rcases List.mem_cons.mp hi with rfl | hil
    · rw [h.other i hc hne.symm, handOver_child hne]
    · have hic : i ≠ child := fun he => hc (he ▸ hil)
      have hinp : i ≠ np := fun he => hnp (List.mem_cons_of_mem _ (he ▸ hil))
      have hmoved := h.moved i hil
      rw [handOver_other hic hinp] at hmoved
      exact hmoved

end HandOver

/-- The loop hands over the list from its head, so that it arrives in reverse order in
front of the list of the new parent. -/
theorem reparentLoop_spec {np : Pid} (hn : l.length ≤ n) (hl : IsChain (siblings tasks) head l)
    (hm : ChildList tasks np m) (hdisj : l.Disjoint m) (hnp : np ∉ l) :
    ∃ tasks', reparentLoop np n tasks head = some tasks' ∧
      ChildList tasks' np (l.reverse ++ m) ∧ Handed np l tasks tasks' := by
  induction l generalizing n tasks head m with
  | nil =>
    rw [isChain_nil] at hl
    subst hl
    refine ⟨tasks, ?_, hm, .refl np tasks⟩
    cases n <;> rfl
  | cons child l ih =>
    obtain _ | n := n
    · simp at hn
    obtain ⟨rfl, hl⟩ := hl
    have hc : child ∉ l := (List.nodup_cons.mp
      (isChain_nodup (show IsChain (siblings tasks) (some child) (child :: l) from ⟨rfl, hl⟩))).1
    have hcm : child ∉ m := List.disjoint_cons_left.mp hdisj |>.1
    have hne : np ≠ child := fun he => hnp (he ▸ List.mem_cons_self)
    have hl' : IsChain (siblings (handOver np tasks child)) (siblings tasks child) l :=
      isChain_congr (fun i hi => siblings_handOver (fun he => hc (he ▸ hi))) hl
    have hm' : ChildList (handOver np tasks child) np (child :: m) := by
      refine ⟨by rw [handOver_adopter hne], ?_⟩
      have hnext : siblings (handOver np tasks child) child = (tasks np).firstChild := by
        rw [siblings, handOver_child hne]
      rw [hnext]
      exact isChain_congr (fun i hi => siblings_handOver (fun he => hcm (he ▸ hi))) hm
    have hdisj' : l.Disjoint (child :: m) :=
      List.disjoint_cons_right.mpr ⟨hc, (List.disjoint_cons_left.mp hdisj).2⟩
    obtain ⟨tasks', hloop, hchain, hhanded⟩ := ih (by simp at hn; omega) hl' hm' hdisj'
      (fun hi => hnp (List.mem_cons_of_mem _ hi))
    refine ⟨tasks', hloop, ?_, hhanded.cons hnp hc⟩
    rw [List.reverse_cons, List.append_assoc]
    exact hchain

theorem newParent_ne (tasks : Pid → Task) {dying : Pid} (h : dying ≠ idle) :
    newParent tasks dying ≠ dying := by
  unfold newParent
  simp only
  split_ifs with h1 h2 h2 <;> first | exact h.symm | exact h2

/-- `task_reparent_children` empties the list of the dying task and moves it in front of
the list of its new parent. -/
theorem taskReparentChildren_spec {d : Pid} (hidle : d ≠ idle) (hl : ChildList tasks d l)
    (hm : ChildList tasks (newParent tasks d) m) (hdisj : l.Disjoint m)
    (hnp : newParent tasks d ∉ l) : ∃ tasks', taskReparentChildren tasks d = some tasks' ∧
      ChildList tasks' (newParent tasks d) (l.reverse ++ m) ∧ (tasks' d).firstChild = none ∧
      ∃ mid, Handed (newParent tasks d) l tasks mid ∧ tasks' = setFirstChild mid d none := by
  have hlen : l.length ≤ maxTasks + 1 := by
    have h := isChain_length_le hl
    rw [Fintype.card_fin] at h
    omega
  obtain ⟨mid, hloop, hchain, hhanded⟩ := reparentLoop_spec hlen hl hm hdisj hnp
  refine ⟨setFirstChild mid d none, ?_, ?_, by simp, mid, hhanded, rfl⟩
  · rw [taskReparentChildren, hloop]
    rfl
  · unfold ChildList
    rw [siblings_setFirstChild, firstChild_setFirstChild, if_neg (newParent_ne tasks hidle)]
    exact hchain

/-! ## Unlinking one child -/

/-- The search stops at the node before `child`. -/
theorem findPrev_spec {prev : Pid} {l1 l2 : List Pid} (hn : l1.length < n)
    (hl : IsChain (siblings tasks) head (l1 ++ prev :: child :: l2)) (hc : child ∉ l1) :
    findPrev tasks child n head = some (some prev) := by
  induction l1 generalizing n head with
  | nil =>
    obtain _ | n := n
    · simp at hn
    obtain ⟨rfl, hnext, -⟩ := hl
    exact if_pos hnext
  | cons a l1 ih =>
    obtain _ | n := n
    · simp at hn
    obtain ⟨rfl, hl⟩ := hl
    have hne : (tasks a).nextSibling ≠ some child := by
      intro he
      have hhead : IsChain (siblings tasks) (some child) (l1 ++ prev :: child :: l2) := he ▸ hl
      -- the node after `a` is `child`, which occurs once more behind `prev`
      cases l1 with
      | nil =>
        have hp : child = prev := some.inj hhead.1
        subst hp
        exact absurd (isChain_nodup hhead) (by simp)
      | cons b l1 =>
        have hb : child = b := some.inj hhead.1
        subst hb
        exact hc (by simp)
    rw [findPrev, if_neg hne]
    exact ih (by simp at hn; omega) hl (fun hm => hc (List.mem_cons_of_mem _ hm))

theorem findPrev_not_mem (hn : l.length ≤ n) (hl : IsChain (siblings tasks) head l)
    (hc : child ∉ l) : findPrev tasks child n head = some none := by
  induction l generalizing n head with
  | nil =>
    rw [isChain_nil] at hl
    subst hl
    cases n <;> rfl
  | cons a l ih =>
    obtain _ | n := n
    · simp at hn
    obtain ⟨rfl, hl⟩ := hl
    have hne : (tasks a).nextSibling ≠ some child := by
      intro he
      have hhead : IsChain (siblings tasks) (some child) l := he ▸ hl
      exact hc (List.mem_cons_of_mem _ (isChain_mem_head hhead))
    rw [findPrev, if_neg hne]
    exact ih (by simpa using hn) hl (fun hm => hc (List.mem_cons_of_mem _ hm))

/-- The table after `child` has left the list `l` of `parent`: only links of nodes of the
list, of the parent and of the child change. -/
structure Unlinked (parent child : Pid) (l : List Pid) (tasks tasks' : Pid → Task) : Prop where
  sibling : ∀ i, i ∉ l → i ≠ child → siblings tasks' i = siblings tasks i
  first : ∀ i, i ≠ parent → (tasks' i).firstChild = (tasks i).firstChild

section RemoveChild

variable {tasks : Pid → Task} {parent child : Pid}

theorem taskRemoveChild_first (hl : ChildList tasks parent (child :: l)) :
    ∃ tasks', taskRemoveChild tasks parent child = some tasks' ∧ ChildList tasks' parent l ∧
      Unlinked parent child (child :: l) tasks tasks' := by
  obtain ⟨hfirst, hl⟩ := hl
  have hc : child ∉ l := (List.nodup_cons.mp (isChain_nodup
    (show IsChain (siblings tasks) (some child) (child :: l) from ⟨rfl, hl⟩))).1
  refine ⟨setNextSibling (setFirstChild tasks parent (tasks child).nextSibling) child none,
    ?_, ?_, ?_, ?_⟩
  · rw [taskRemoveChild, if_pos hfirst]
    rfl
  · unfold ChildList
    rw [firstChild_setNextSibling, firstChild_setFirstChild, if_pos rfl]
    refine isChain_congr (fun i hi => ?_) hl
    have hic : i ≠ child := fun he => hc (he ▸ hi)
    rw [siblings_setNextSibling, if_neg hic, siblings_setFirstChild]
  · intro i _ hic
    rw [siblings_setNextSibling, if_neg hic, siblings_setFirstChild]
  · intro i hip
    rw [firstChild_setNextSibling, firstChild_setFirstChild, if_neg hip]

theorem taskRemoveChild_later {l1 l2 : List Pid} {prev : Pid}
    (hl : ChildList tasks parent (l1 ++ prev :: child :: l2)) :
    ∃ tasks', taskRemoveChild tasks parent child = some tasks' ∧
      ChildList tasks' parent (l1 ++ prev :: l2) ∧
      Unlinked parent child (l1 ++ prev :: child :: l2) tasks tasks' := by
  have hnodup := isChain_nodup hl
  have hlen : l1.length < maxTasks + 1 := by
    have h := isChain_length_le hl
    simp only [Fintype.card_fin, List.length_append, List.length_cons] at h
    omega
  have hrest : ∀ i ∈ l1 ++ l2, i ≠ child ∧ i ≠ prev := by
    intro i hi
    simp only [List.nodup_append, List.nodup_cons, List.mem_cons, not_or] at hnodup
    obtain ⟨-, ⟨⟨-, hp⟩, hc, -⟩, hdisj⟩ := hnodup
    rcases List.mem_append.mp hi with h | h
    · exact ⟨hdisj i h child (by simp), hdisj i h prev (by simp)⟩
    · exact ⟨fun he => hc (he ▸ h), fun he => hp (he ▸ h)⟩
  have hcp : prev ≠ child := by
    simp only [List.nodup_append, List.nodup_cons, List.mem_cons, not_or] at hnodup
    exact hnodup.2.1.1.1
  have hc1 : child ∉ l1 := fun hm => (hrest child (by simp [hm])).1 rfl
  have hfirst : (tasks parent).firstChild ≠ some child := by
    intro he
    cases l1 with
    | nil => exact hcp (some.inj (hl.1.symm.trans he))
    | cons b l1 =>
      have hb : b = child := some.inj (hl.1.symm.trans he)
      exact hc1 (hb ▸ List.mem_cons_self)
  refine ⟨setNextSibling (setNextSibling tasks prev (tasks child).nextSibling) child none,
    ?_, ?_, ?_, ?_⟩
  · rw [taskRemoveChild, if_neg hfirst, findPrev_spec hlen hl hc1]
    rfl
  · unfold ChildList
    rw [firstChild_setNextSibling, firstChild_setNextSibling]
    refine isChain_unlink hl ?_ ?_
    · rw [siblings_setNextSibling, if_neg hcp, siblings_setNextSibling, if_pos rfl]
      rfl
    · intro i hi
      obtain ⟨hic, hip⟩ := hrest i hi
      rw [siblings_setNextSibling, if_neg hic, siblings_setNextSibling, if_neg hip]
  · intro i hi hic
    have hip : i ≠ prev := by
      rintro rfl
      simp at hi
    rw [siblings_setNextSibling, if_neg hic, siblings_setNextSibling, if_neg hip]
  · intro i _
    rw [firstChild_setNextSibling, firstChild_setNextSibling]

theorem taskRemoveChild_absent (hl : ChildList tasks parent l) (hc : child ∉ l) :
    ∃ tasks', taskRemoveChild tasks parent child = some tasks' ∧ ChildList tasks' parent l ∧
      Unlinked parent child l tasks tasks' := by
  have hfirst : (tasks parent).firstChild ≠ some child := by
    intro he
    unfold ChildList at hl
    rw [he] at hl
    exact hc (isChain_mem_head hl)
  have hlen : l.length ≤ maxTasks + 1 := by
    have h := isChain_length_le hl
    rw [Fintype.card_fin] at h
    omega
  refine ⟨setNextSibling tasks child none, ?_, ?_, ?_, ?_⟩
  · rw [taskRemoveChild, if_neg hfirst, findPrev_not_mem hlen hl hc]
    rfl
  · unfold ChildList
    rw [firstChild_setNextSibling]
    refine isChain_congr (fun i hi => ?_) hl
    have hic : i ≠ child := fun he => hc (he ▸ hi)
    rw [siblings_setNextSibling, if_neg hic]
  · intro i _ hic
    rw [siblings_setNextSibling, if_neg hic]
  · intro i _
    rw [firstChild_setNextSibling]

/-- `task_remove_child` takes the child out of its parent's list, if it is there. -/
theorem taskRemoveChild_spec (child : Pid) (hl : ChildList tasks parent l) :
    ∃ tasks', taskRemoveChild tasks parent child = some tasks' ∧
      ChildList tasks' parent (l.erase child) ∧ Unlinked parent child l tasks tasks' := by
  by_cases hc : child ∈ l
  · obtain ⟨l1, l2, hc1, rfl, herase⟩ := List.exists_erase_eq hc
    rw [herase]
    rcases List.eq_nil_or_concat l1 with rfl | ⟨l0, prev, rfl⟩
    · exact taskRemoveChild_first hl
    · rw [List.concat_append] at hl ⊢
      rw [List.concat_append]
      exact taskRemoveChild_later hl
  · rw [List.erase_of_not_mem hc]
    exact taskRemoveChild_absent hl hc

end RemoveChild

/-! ## What the list operations leave alone -/

/-- Nothing but the three link fields of a task differs. -/
def SameButLinks (tasks tasks' : Pid → Task) : Prop :=
  ∀ i, tasks' i = { tasks i with
    parentPid := (tasks' i).parentPid
    firstChild := (tasks' i).firstChild
    nextSibling := (tasks' i).nextSibling }

namespace SameButLinks

variable {tasks tasks' : Pid → Task}

theorem refl (tasks : Pid → Task) : SameButLinks tasks tasks := fun _ => rfl

theorem trans {tasks'' : Pid → Task} (h : SameButLinks tasks tasks')
    (h' : SameButLinks tasks' tasks'') : SameButLinks tasks tasks'' := by
  intro i
  rw [h' i, h i]

theorem update {p f n : Option Pid} : SameButLinks tasks (Function.update tasks i
    { tasks i with parentPid := p, firstChild := f, nextSibling := n }) := by
  intro j
  by_cases h : j = i
  · subst h
    simp
  · rw [Function.update_of_ne h]

theorem setFirstChild (tasks : Pid → Task) (i : Pid) (child : Option Pid) :
    SameButLinks tasks (setFirstChild tasks i child) := update

theorem setNextSibling (tasks : Pid → Task) (i : Pid) (next : Option Pid) :
    SameButLinks tasks (setNextSibling tasks i next) := update

theorem handOver (np : Pid) (tasks : Pid → Task) (child : Pid) :
    SameButLinks tasks (handOver np tasks child) :=
  update.trans (setFirstChild _ np _)

theorem reparentLoop {np : Pid} {n : Nat} {tasks : Pid → Task} {head : Option Pid}
    (h : reparentLoop np n tasks head = some tasks') : SameButLinks tasks tasks' := by
  induction n generalizing tasks head with
  | zero =>
    cases head with
    | none => exact some.inj h ▸ refl tasks
    | some child => cases h
  | succ n ih =>
    cases head with
    | none => exact some.inj h ▸ refl tasks
    | some child => exact (handOver np tasks child).trans (ih h)

theorem taskReparentChildren {dying : Pid}
    (h : taskReparentChildren tasks dying = some tasks') : SameButLinks tasks tasks' := by
  obtain ⟨mid, hloop, rfl⟩ := map_eq_some_iff.mp h
  exact (reparentLoop hloop).trans (setFirstChild mid dying none)

theorem taskRemoveChild {parent child : Pid}
    (h : taskRemoveChild tasks parent child = some tasks') : SameButLinks tasks tasks' := by
  obtain ⟨mid, hmid, rfl⟩ := map_eq_some_iff.mp h
  refine trans ?_ (setNextSibling mid child none)
  split_ifs at hmid
  · exact some.inj hmid ▸ setFirstChild tasks parent _
  · obtain ⟨prev, -, rfl⟩ := map_eq_some_iff.mp hmid
    cases prev with
    | none => exact refl tasks
    | some prev => exact setNextSibling tasks prev _

section

variable (h : SameButLinks tasks tasks') (i : Pid)

include h

theorem state : (tasks' i).state = (tasks i).state := by
  rw [h i]

theorem waitForPid : (tasks' i).waitForPid = (tasks i).waitForPid := by
  rw [h i]

theorem sleepUntil : (tasks' i).sleepUntil = (tasks i).sleepUntil := by
  rw [h i]

end

end SameButLinks

/-- `task_remove_child` does not change any parent. -/
theorem taskRemoveChild_parentPid {parent : Pid}
    (h : taskRemoveChild tasks parent child = some tasks') (i : Pid) :
    (tasks' i).parentPid = (tasks i).parentPid := by
  have hfirst (tasks : Pid → Task) (j : Pid) (link : Option Pid) :
      (setFirstChild tasks j link i).parentPid = (tasks i).parentPid := by
    by_cases hj : i = j
    · subst hj
      simp [setFirstChild]
    · simp [setFirstChild, hj]
  have hnext (tasks : Pid → Task) (j : Pid) (link : Option Pid) :
      (setNextSibling tasks j link i).parentPid = (tasks i).parentPid := by
    by_cases hj : i = j
    · subst hj
      simp [setNextSibling]
    · simp [setNextSibling, hj]
  obtain ⟨mid, hmid, rfl⟩ := map_eq_some_iff.mp h
  rw [hnext]
  split_ifs at hmid
  · rw [← some.inj hmid, hfirst]
  · obtain ⟨prev, -, rfl⟩ := map_eq_some_iff.mp hmid
    cases prev with
    | none => rfl
    | some prev => exact hnext tasks prev _

end Crius.Process
