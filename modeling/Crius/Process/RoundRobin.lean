import Crius.Process.SchedInvariant

/-!
# Round robin

The rank of a waiting task is its place in the order in which `do_schedule` visits the
slots from the current one. A choice that passes the task over takes a slot in front of
it, so the rank falls; no other step changes the current task. The ranks of the tasks
chosen while one task waits are therefore decreasing, and no task is chosen twice.
-/
namespace Crius.Process

open Lib.Run Option List Kernel

variable {σ : Type} (S : Services σ) {p i : Pid} {k k' : Kernel σ} {tasks : Pid → Task}

/-- The place of slot `i` in the search that starts after slot `p`; `p` itself comes last. -/
def searchRank (p i : Pid) : Nat := (i.val + (maxTasks - 1) - p.val) % maxTasks

/-- The place of slot `i` in the next search, or the last place while there is no current
task. -/
def Kernel.rank (k : Kernel σ) (i : Pid) : Nat :=
  match k.currentTask with
  | none => maxTasks - 1
  | some p => searchRank p i

theorem searchRank_lt (p i : Pid) : searchRank p i < maxTasks := Nat.mod_lt _ (by decide)

theorem rank_le (k : Kernel σ) (i : Pid) : k.rank i ≤ maxTasks - 1 := by
  unfold rank
  cases k.currentTask with
  | none => exact le_rfl
  | some p => exact Nat.le_sub_one_of_lt (searchRank_lt p i)

/-- Only slot `i` itself has the last place for `i`. -/
theorem searchRank_lt_last (h : p ≠ i) : searchRank p i < maxTasks - 1 := by
  have hne : p.val ≠ i.val := fun hv => h (Fin.ext hv)
  have hp : p.val < 64 := p.isLt
  have hi : i.val < 64 := i.isLt
  change (i.val + 63 - p.val) % 64 < 63
  omega

/-- Going on from a slot that lies in front of `i`. -/
theorem searchRank_trans {q : Pid} (h : searchRank p q < searchRank p i) :
    searchRank q i < searchRank p i := by
  have hp : p.val < 64 := p.isLt
  have hq : q.val < 64 := q.isLt
  have hi : i.val < 64 := i.isLt
  change (q.val + 63 - p.val) % 64 < (i.val + 63 - p.val) % 64 at h
  change (i.val + 63 - q.val) % 64 < (i.val + 63 - p.val) % 64
  omega

/-- Slot `q` stands in the search order at its rank. -/
theorem searchOrder_rank (p q : Pid) : (searchOrder (some p))[searchRank p q]? = some q := by
  have hlt := searchRank_lt p q
  have hval : (p.val + (searchRank p q + 1)) % maxTasks = q.val := by
    have hp : p.val < 64 := p.isLt
    have hq : q.val < 64 := q.isLt
    change (p.val + ((q.val + 63 - p.val) % 64 + 1)) % 64 = q.val
    omega
  simp only [searchOrder, getElem?_map, getElem?_range hlt, map_some,
    some.injEq]
  exact Fin.ext hval

/-- The slot at place `n` of the search order has rank `n`. -/
theorem searchRank_of_getElem {q : Pid} {n : Nat} (h : (searchOrder (some p))[n]? = some q) :
    searchRank p q = n := by
  simp only [searchOrder, List.getElem?_map, map_eq_some_iff] at h
  obtain ⟨m, hm, hq⟩ := h
  obtain ⟨hn, hget⟩ := List.getElem?_eq_some_iff.mp hm
  rw [List.getElem_range] at hget
  rw [List.length_range] at hn
  have hp : p.val < 64 := p.isLt
  have hn' : n < 64 := hn
  have hval : (p.val + (m + 1)) % 64 = q.val := congrArg Fin.val hq
  change (q.val + 63 - p.val) % 64 = n
  omega

/-- While a task is ready, the choice is the first ready slot of the search order. -/
theorem pickNext_of_ready (prev : Option Pid) (hi : (tasks i).state = .ready) :
    ∃ c, pickNext tasks prev = some c ∧
      (searchOrder prev).find? (fun j => (tasks j).state = .ready) = some c := by
  have hfound : ((searchOrder prev).find? fun j => (tasks j).state = .ready).isSome := by
    rw [find?_isSome]
    exact ⟨i, mem_searchOrder prev i, decide_eq_true hi⟩
  obtain ⟨c, hc⟩ := isSome_iff_exists.mp hfound
  refine ⟨c, ?_, hc⟩
  simp only [pickNext, hc]

/-- A ready task that is passed over stands behind the task that is chosen. -/
theorem pickNext_before {c : Pid} (hi : (tasks i).state = .ready)
    (hpick : pickNext tasks (some p) = some c) (hne : c ≠ i) : searchRank p c < searchRank p i := by
  obtain ⟨c', hpick', hfind⟩ := pickNext_of_ready (some p) hi
  obtain rfl : c' = c := some.inj (hpick'.symm.trans hpick)
  obtain ⟨-, n, hn, hget, hbefore⟩ := List.find?_eq_some_iff_getElem.mp hfind
  have hrank : searchRank p c' = n :=
    searchRank_of_getElem (List.getElem?_eq_some_iff.mpr ⟨hn, hget⟩)
  rw [hrank]
  by_contra hle
  rcases lt_or_eq_of_le (not_lt.mp hle) with hlt | heq
  · -- the search would have met task `i` first
    have hready := hbefore _ hlt
    obtain ⟨hlen, hat⟩ := List.getElem?_eq_some_iff.mp (searchOrder_rank p i)
    rw [hat] at hready
    simp [hi] at hready
  · have hat := searchOrder_rank p i
    rw [heq, List.getElem?_eq_some_iff.mpr ⟨hn, hget⟩] at hat
    exact hne (some.inj hat)

/-! ## Steps that make no choice -/

/-- The choice that a step makes; only `do_schedule` makes one. -/
def choice (k : Kernel σ) : Op → Option Pid
  | .reschedule rsp => pickNext (readyTasks { k with savedRsp := rsp }) k.currentTask
  | _ => none

/-- The step leaves the current task alone, or makes the first one. -/
def KeepsCurrent (k k' : Kernel σ) : Prop :=
  k'.currentTask = k.currentTask ∨ k.currentTask = none

theorem SameSched.keepsCurrent (h : SameSched k k') : KeepsCurrent k k' :=
  .inl h.currentTask

theorem keepsCurrent_taskFork (k : Kernel σ) (frameRip : Nat) :
    KeepsCurrent k (taskFork S k frameRip).2 := by
  rcases taskFork_cases S k frameRip with hnone | ⟨p, c, ok, k1, hcur, -, hacq, hfork⟩
  · rw [hnone]
    exact .inl rfl
  · have h1 := hacq.memStep.sameSched
    rw [hfork]
    cases ok with
    | false => exact h1.keepsCurrent
    | true => exact .inl ((forkCommit_globals S k1 p c frameRip).1.trans h1.currentTask)

theorem keepsCurrent_taskCreate (k : Kernel σ) (name : List UInt8) (entry : Nat) :
    KeepsCurrent k (taskCreate S k name entry).2 := by
  unfold taskCreate
  rcases taskCreateArgs_cases S k name entry 0 with
    heq | ⟨c, ok, k1, -, hacq, ⟨-, heq⟩ | ⟨-, hnone, -⟩ | ⟨-, -, heq⟩⟩
  · rw [heq]
    exact .inl rfl
  · rw [heq]
    exact .inl hacq.memStep.currentTask
  · exact .inr hnone
  · rw [heq]
    exact .inl hacq.memStep.currentTask

/-- Every step but a reschedule keeps the current task, once there is one. -/
theorem step_keepsCurrent {op : Op} (hop : ∀ rsp, op ≠ .reschedule rsp)
    (h : step S k op = some k') : KeepsCurrent k k' := by
  rcases step_cases h with
    ⟨p, hc, hcall⟩ | ⟨rfl, rfl⟩ | ⟨rsp, rfl, -⟩ | ⟨name, entry, rfl, rfl⟩
  · cases called_syscall S hc.current hcall with
    | same => exact .inl rfl
    | fork frameRip => exact keepsCurrent_taskFork S k frameRip
    | exec path argv => exact (memStep_doExec S k path argv).sameSched.keepsCurrent
    | exit died =>
      obtain ⟨-, -, -, hcur, -⟩ := die_links S died
      exact .inl hcur
    | kill _ _ _ _ died =>
      obtain ⟨-, -, -, hcur, -⟩ := die_links S died
      exact .inl hcur
    | reap _ _ _ _ reaped =>
      obtain ⟨-, -, -, hcur, -⟩ := reap_links S reaped
      exact .inl hcur
    | block => exact .inl rfl
    | sleep ms => exact .inl rfl
    | yield => exact .inl rfl
    | setPriority i => exact .inl rfl
  · exact .inl rfl
  · exact absurd rfl (hop rsp)
  · exact keepsCurrent_taskCreate S k name entry

theorem KeepsCurrent.rank_le (h : KeepsCurrent k k') (i : Pid) : k'.rank i ≤ k.rank i := by
  rcases h with hcur | hnone
  · unfold rank
    rw [hcur]
  · have hlast : k.rank i = maxTasks - 1 := by
      unfold rank
      rw [hnone]
    rw [hlast]
    exact Process.rank_le k' i

/-! ## A series of choices -/

/-- Task `i` is ready when the step makes its choice, and is not chosen. -/
def PassedOver (i : Pid) (k : Kernel σ) (op : Op) : Prop :=
  ∀ rsp, op = .reschedule rsp →
    (readyTasks { k with savedRsp := rsp } i).state = .ready ∧ choice k op ≠ some i

/-- The choices of a run, in order. -/
def choices : Kernel σ → List Op → List Pid
  | _, [] => []
  | k, op :: ops =>
    (choice k op).toList ++ ((step S k op).map fun k' => choices k' ops).getD []

/-- A reschedule that passes task `i` over goes to a task of lower rank. -/
theorem reschedule_rank {rsp : Nat} (h : PassedOver i k (.reschedule rsp)) :
    ∃ c, choice k (.reschedule rsp) = some c ∧ (reschedule S k rsp).currentTask = some c ∧
      searchRank c i < k.rank i := by
  obtain ⟨hready, hne⟩ := h rsp rfl
  obtain ⟨c, hpick, -⟩ := pickNext_of_ready k.currentTask hready
  have hdo : (doSchedule S { k with savedRsp := rsp }).currentTask = some c :=
    doSchedule_currentTask S hpick
  have hcur : (reschedule S k rsp).currentTask = some c := by
    unfold reschedule
    generalize doSchedule S _ = k' at hdo ⊢
    exact hdo
  have hci : c ≠ i := by
    rintro rfl
    exact hne hpick
  refine ⟨c, hpick, hcur, ?_⟩
  unfold rank
  generalize readyTasks { k with savedRsp := rsp } = tasks at hpick hready
  cases hprev : k.currentTask with
  | none => exact searchRank_lt_last hci
  | some p =>
    rw [hprev] at hpick
    exact searchRank_trans (pickNext_before hready hpick hci)

/-- The ranks of the chosen tasks fall, from below the rank at the start. -/
theorem choices_ranks {ops : List Op} (h : Along (step S) (PassedOver i) k ops) :
    (k.rank i :: (choices S k ops).map fun c => searchRank c i).Pairwise (· > ·) := by
  induction ops generalizing k with
  | nil => exact pairwise_singleton _ _
  | cons op ops ih =>
    by_cases hop : ∃ rsp, op = .reschedule rsp
    · obtain ⟨rsp, rfl⟩ := hop
      obtain ⟨c, hc, hcur, hlt⟩ := reschedule_rank S h.1
      have hrest := ih (h.2 _ rfl)
      have hrank : (reschedule S k rsp).rank i = searchRank c i := by
        unfold rank
        rw [hcur]
      rw [hrank] at hrest
      have hsplit : choices S k (.reschedule rsp :: ops) =
          c :: choices S (reschedule S k rsp) ops := by
        rw [choices, hc]
        rfl
      rw [hsplit, map_cons]
      refine pairwise_cons.mpr ⟨?_, hrest⟩
      intro n hn
      rcases mem_cons.mp hn with rfl | hn
      · exact hlt
      · exact lt_trans ((pairwise_cons.mp hrest).1 n hn) hlt
    · have hne : ∀ rsp, op ≠ .reschedule rsp := fun rsp he => hop ⟨rsp, he⟩
      have hchoice : choice k op = none := by
        unfold choice
        split
        · next rsp => exact absurd rfl (hne rsp)
        · rfl
      rw [choices, hchoice]
      cases hstep : step S k op with
      | none => exact pairwise_singleton _ _
      | some k' =>
        have hrest := pairwise_cons.mp (ih (h.2 k' hstep))
        refine pairwise_cons.mpr ⟨?_, hrest.2⟩
        intro n hn
        exact lt_of_lt_of_le (hrest.1 n hn) ((step_keepsCurrent S hne hstep).rank_le i)

/-- A falling list of numbers below a bound is not longer than the bound. -/
theorem length_le_of_falling {n : Nat} {l : List Nat} (h : (n :: l).Pairwise (· > ·)) :
    l.length ≤ n := by
  induction l generalizing n with
  | nil => exact Nat.zero_le n
  | cons m l ih =>
    obtain ⟨hm, htail⟩ := pairwise_cons.mp h
    have hlt := hm m mem_cons_self
    have hlen := ih htail
    rw [length_cons]
    omega

/-- In a run in which task `i` is ready at every choice and never chosen, whatever happens
between the choices, every `do_schedule` chooses some task, no task is chosen twice, and at
most `MAX_TASKS - 1` choices are made. -/
theorem round_robin_never_overtakes (k : Kernel σ) (ops : List Op) (i : Pid)
    (h : Along (step S) (PassedOver i) k ops) :
    Along (step S) (fun k op => ∀ rsp, op = .reschedule rsp → (choice k op).isSome) k ops ∧
    (choices S k ops).Nodup ∧ (choices S k ops).length ≤ maxTasks - 1 := by
  have hranks := choices_ranks S h
  refine ⟨?_, ?_, ?_⟩
  · clear hranks
    induction ops generalizing k with
    | nil => trivial
    | cons op ops ih =>
      refine ⟨?_, fun k' hk' => ih k' (h.2 k' hk')⟩
      rintro rsp rfl
      obtain ⟨c, hc, -⟩ := reschedule_rank S h.1
      rw [hc]
      rfl
  · have hpair := (pairwise_cons.mp hranks).2
    rw [pairwise_map] at hpair
    refine hpair.imp ?_
    intro a b hab heq
    rw [heq] at hab
    exact lt_irrefl _ hab
  · have hlen := length_le_of_falling hranks
    rw [length_map] at hlen
    exact hlen.trans (rank_le k i)

/-- Idle, init and three more tasks. -/
def fiveTasks : Kernel Nat :=
  (taskCreate bumpServices (taskCreate bumpServices
    (taskCreate bumpServices bumpBoot [] 0).2 [] 0).2 [] 0).2

/-- Two tasks created after init are chosen after it, with a tick between the choices, while the
last one waits. -/
theorem round_robin_never_overtakes_five :
    let ops : List Op := [.reschedule 0, .reschedule 0, .tick, .reschedule 0]
    choices bumpServices fiveTasks ops = [init, ⟨2, by decide⟩, ⟨3, by decide⟩] ∧
      (choices bumpServices fiveTasks ops).Nodup := by
  have hpassed {k : Kernel Nat} (hready : (readyTasks { k with savedRsp := 0 } ⟨4, by decide⟩).state =
      .ready) (hchoice : choice k (.reschedule 0) ≠ some ⟨4, by decide⟩) :
      PassedOver ⟨4, by decide⟩ k (.reschedule 0) := by
    intro rsp hrsp
    cases hrsp
    exact ⟨hready, hchoice⟩
  refine ⟨by decide +kernel,
    (round_robin_never_overtakes bumpServices fiveTasks _ ⟨4, by decide⟩ ?_).2.1⟩
  refine ⟨hpassed (by decide +kernel) (by decide +kernel), fun k1 h1 => ?_⟩
  obtain rfl := Option.some.inj h1
  refine ⟨hpassed (by decide +kernel) (by decide +kernel), fun k2 h2 => ?_⟩
  obtain rfl := Option.some.inj h2
  refine ⟨fun rsp hrsp => (by cases hrsp), fun k3 h3 => ?_⟩
  obtain rfl := Option.some.inj h3
  exact ⟨hpassed (by decide +kernel) (by decide +kernel), fun _ _ => trivial⟩

end Crius.Process
