import Crius.Process.ChildList
import Crius.Process.Effect
import Crius.Process.Rollback

/-!
# Accounted memory

The counts of the page allocator agree with the address spaces of the tasks, and every step of
the process system keeps it so. A step changes the spaces in one of three ways: a free slot gets
a space that was built beside the others, the running task exchanges its space for a new one, or
a zombie gives its space back. All other steps are `Still`.
-/
namespace Crius.Process

open Fs Mm Lib Function Option Multiset Kernel Process.Task

variable {η : Type} {t : Task} {c : Pid} {f : Task → Task}

/-! ## Address spaces of the tasks -/

/-- The PML4 of a task; a free slot has none. -/
def Task.space (t : Task) : Option Addr := if t.state = .unused then none else some t.cr3

def Kernel.spaces {σ : Type} (k : Kernel σ) : Pid → Option Addr := fun i => (k.tasks i).space

/-- The PML4s of the tasks other than the idle task. -/
def rootsOf (spaces : Pid → Option Addr) : Multiset Addr :=
  Finset.univ.val.filterMap fun i => if i = idle then none else spaces i

/-- The PML4s of the tasks other than the idle task and `c`. -/
def othersOf (c : Pid) (spaces : Pid → Option Addr) : Multiset Addr :=
  (Finset.univ.erase c).val.filterMap fun i => if i = idle then none else spaces i

section Roots

variable {spaces : Pid → Option Addr} {c : Pid} {r : Addr}

theorem space_used (h : t.state ≠ .unused) : t.space = some t.cr3 := if_neg h

theorem space_congr {t' : Task} (hstate : t'.state = .unused ↔ t.state = .unused)
    (hcr3 : t'.cr3 = t.cr3) : t'.space = t.space := by
  unfold space
  simp only [hstate, hcr3]

theorem space_eq_some (h : t.space = some r) : t.state ≠ .unused ∧ t.cr3 = r := by
  unfold space at h
  split at h
  · cases h
  · next hu => exact ⟨hu, some.inj h⟩

theorem filterMap_congr {s : Multiset Pid} {f g : Pid → Option Addr} (h : ∀ i ∈ s, f i = g i) :
    s.filterMap f = s.filterMap g := by
  induction s using Quot.inductionOn with
  | h l => exact congrArg ofList (List.filterMap_congr h)

theorem rootsOf_spaces {σ : Type} (k : Kernel σ) : rootsOf k.spaces = taskRoots k.tasks := by
  rw [rootsOf, taskRoots, Finset.filter_val, ← filterMap_eq_map, filterMap_filter]
  refine filterMap_congr fun i _ => ?_
  by_cases hi : i = idle
  · simp [hi]
  · by_cases hs : (k.tasks i).state = .unused
    · simp [hi, hs, spaces, space]
    · simp [hi, hs, spaces, space]

theorem univ_split (c : Pid) : (Finset.univ : Finset Pid).val = c ::ₘ (Finset.univ.erase c).val := by
  rw [Finset.erase_val, cons_erase (Finset.mem_val.mpr (Finset.mem_univ c))]

theorem rootsOf_some (hc : c ≠ idle) (h : spaces c = some r) :
    rootsOf spaces = r ::ₘ othersOf c spaces := by
  rw [rootsOf, univ_split c, filterMap_cons_some _ _ _ (by rw [if_neg hc, h]), othersOf]

theorem rootsOf_none (h : spaces c = none) : rootsOf spaces = othersOf c spaces := by
  rw [rootsOf, univ_split c, filterMap_cons_none _ _ (by rw [h, ite_self]), othersOf]

theorem othersOf_update (v : Option Addr) : othersOf c (update spaces c v) = othersOf c spaces := by
  refine filterMap_congr fun i hi => ?_
  have hne : i ≠ c := (Finset.mem_erase.mp (Finset.mem_val.mp hi)).1
  rw [update_of_ne hne]

end Roots

/-! ## Accounted memory -/

/-- The counts agree with the address spaces, and the page tables of the idle task are
reserved. -/
structure Framed (O : Outside η) (reserved : Addr → Prop) (spaces : Pid → Option Addr) (e : Vm × η) :
    Prop where
  forest : Forest e.1 (rootsOf spaces) 0 (fun _ => 0) fun x => O.heap e.2 x ∨ reserved x
  apart : ∀ x, O.heap e.2 x → ¬reserved x
  idleTables : ∀ r, spaces idle = some r →
    IsFrame r ∧ ∀ x n, Radix.Below shape e.1.mem 4 (rootWord r) x n → reserved x

section Framed

variable {O : Outside η} {reserved : Addr → Prop} {spaces spaces' : Pid → Option Addr}
  {e e' : Vm × η}

namespace Framed

variable (h : Framed O reserved spaces e)

include h

theorem atRest : AtRest O e (rootsOf spaces) reserved e :=
  ⟨h.forest, h.apart, Kept.refl _ _ _, rfl, rfl⟩

/-- The spaces have changed, but no reserved page. -/
theorem change
    (hforest : Forest e'.1 (rootsOf spaces') 0 (fun _ => 0) fun x => O.heap e'.2 x ∨ reserved x)
    (hapart : ∀ x, O.heap e'.2 x → ¬reserved x) (hkept : ∀ x, reserved x → e'.1.mem x = e.1.mem x)
    (hidle : spaces' idle = spaces idle) : Framed O reserved spaces' e' := by
  refine ⟨hforest, hapart, fun r hr => ?_⟩
  rw [hidle] at hr
  obtain ⟨hframe, hold⟩ := h.idleTables r hr
  refine ⟨hframe, fun x n hb => ?_⟩
  exact hold x n ((Radix.below_congr fun y m hy => hkept y (hold y m hy)).mp hb)

theorem of_atRest (hq : AtRest O e (rootsOf spaces) reserved e') : Framed O reserved spaces e' :=
  h.change hq.forest hq.apart (fun x hx => hq.kept.pages x (.inr hx)) rfl

theorem owned : O.Owned e := h.atRest.owned

theorem heapMoves (hm : HeapMoves e.1 (O.heap e.2) e'.1 (O.heap e'.2)) :
    Framed O reserved spaces e' := by
  obtain ⟨hforest, hapart, hframe⟩ := h.forest.heapMoves h.apart hm
  refine h.change hforest hapart (fun x hx => ?_) rfl
  exact (hframe x (h.forest.guarded_inUse (.inr hx)) fun hheap => h.apart x hheap hx).2.2

/-- The file layer does not touch memory. -/
theorem files {s : η} (hs : O.heap s = O.heap e.2) : Framed O reserved spaces (e.1, s) := by
  refine h.change ?_ ?_ (fun _ _ => rfl) rfl
  · rw [hs]
    exact h.forest
  · rw [hs]
    exact h.apart

/-- A space is given back; the others are those of the tasks. -/
theorem discard {e1 : Vm × η} {r : Addr}
    (hforest : Forest e1.1 (r ::ₘ rootsOf spaces') 0 (fun _ => 0) fun x => O.heap e1.2 x ∨ reserved x)
    (hapart : ∀ x, O.heap e1.2 x → ¬reserved x) (hkept : ∀ x, reserved x → e1.1.mem x = e.1.mem x)
    (hidle : spaces' idle = spaces idle) :
    Framed O reserved spaces' (discardSpace (vmServices O) r e1) := by
  have hbeside : Beside e1.1 (rootsOf spaces') reserved (O.heap e1.2) r 0 e1.1 :=
    ⟨hforest, hapart, Kept.refl _ _ _⟩
  obtain ⟨hfreed, hsame⟩ := hbeside.discard
  rw [discardSpace_eq]
  exact h.change hfreed hapart
    (fun x hx => (hsame.pages x (.inr hx)).trans (hkept x hx)) hidle

/-- A copy-on-write fault in the space of a task. -/
theorem fault {r virt : Addr} {ok : Bool} {vm : Vm} (hc : c ≠ idle) (hr : spaces c = some r)
    (hlow : (tableIndex virt 39).val < 256) (hrun : vmmHandleCowFault r virt e.1 = (ok, vm)) :
    Framed O reserved spaces (vm, e.2) := by
  have hroot : r ∈ rootsOf spaces := by
    rw [rootsOf_some hc hr]
    exact mem_cons_self _ _
  obtain ⟨hfault, hforest, -, -⟩ := h.forest.handleCowFault hroot hlow hrun
  refine h.change hforest h.apart (fun x hx => ?_) rfl
  obtain ⟨-, hused, hzero⟩ := h.forest.accounts.apart x (.inr hx)
  have htable : treeTables e.1.mem (rootsOf spaces) x = 0 := by omega
  cases hfault with
  | refused _ => rfl
  | owned _ _ _ _ hpages => exact hpages x htable
  | copied _ _ _ hfree _ _ _ hpages =>
    refine hpages x (fun heq => ?_) htable
    rw [heq, hfree] at hused
    cases hused

end Framed

end Framed

/-! ## Steps that leave the address spaces alone -/

/-- No task gets or loses a space, and memory stays accounted for. The spaces that memory is
accounted for are not always those of the table, since `task_cleanup` clears `cr3` before the slot
is free. -/
structure Still (O : Outside η) (k k' : Kernel (Vm × η)) : Prop where
  spaces : k'.spaces = k.spaces
  currentTask : k'.currentTask = k.currentTask
  cr3 : k'.cr3 = k.cr3
  idle : (k'.tasks idle).state = .zombie → (k.tasks idle).state = .zombie
  env : ∀ reserved spaces, Framed O reserved spaces k.env → Framed O reserved spaces k'.env

namespace Still

variable {O : Outside η} {k k₁ k₂ k₃ : Kernel (Vm × η)}

theorem refl (k : Kernel (Vm × η)) : Still O k k := ⟨rfl, rfl, rfl, id, fun _ _ h => h⟩

theorem trans (h : Still O k₁ k₂) (h' : Still O k₂ k₃) : Still O k₁ k₃ :=
  ⟨h'.spaces.trans h.spaces, h'.currentTask.trans h.currentTask, h'.cr3.trans h.cr3,
    fun hz => h.idle (h'.idle hz), fun _ _ hf => h'.env _ _ (h.env _ _ hf)⟩

theorem setTasks {tasks : Pid → Task} (h : ∀ i, (tasks i).space = (k.tasks i).space)
    (hidle : (tasks Process.idle).state = .zombie → (k.tasks Process.idle).state = .zombie) :
    Still O k (k.setTasks tasks) :=
  ⟨funext h, rfl, rfl, hidle, fun _ _ hf => hf⟩

theorem modify {i : Pid} (h : (f (k.tasks i)).space = (k.tasks i).space)
    (hstate : i = Process.idle → (f (k.tasks i)).state = .zombie → (k.tasks i).state = .zombie) :
    Still O k (k.modify i f) := by
  refine ⟨funext fun j => ?_, rfl, rfl, fun hz => ?_, fun _ _ hf => hf⟩
  · by_cases hj : j = i
    · subst hj
      simp only [Kernel.spaces, Kernel.modify_tasks, if_true]
      exact h
    · simp only [Kernel.spaces, Kernel.modify_tasks, if_neg hj]
  · by_cases hi : i = Process.idle
    · subst hi
      rw [Kernel.modify_tasks, if_pos rfl] at hz
      exact hstate rfl hz
    · rwa [Kernel.modify_tasks, if_neg (Ne.symm hi)] at hz

theorem call (k : Kernel (Vm × η)) {f : Vm × η → Vm × η}
    (h : ∀ reserved spaces, Framed O reserved spaces k.env → Framed O reserved spaces (f k.env)) :
    Still O k (k.call f) := ⟨rfl, rfl, rfl, id, h⟩

theorem foldl {α : Type} {f : Kernel (Vm × η) → α → Kernel (Vm × η)}
    (h : ∀ k a, Still O k (f k a)) (l : List α) (k : Kernel (Vm × η)) : Still O k (l.foldl f k) :=
  l.foldlRecOn f (.refl k) fun k1 h1 a _ => h1.trans (h k1 a)

end Still

section Calls

variable {O : Outside η} (hO : O.Ok) (k : Kernel (Vm × η)) (i : Pid)

include hO

theorem still_kfree (ptr : Nat) : Still O k (k.call ((vmServices O).kfree ptr)) :=
  .call k fun _ _ h => h.heapMoves (hO.kfree ptr k.env h.owned).heap

theorem still_releaseFd (i : Pid) (k : Kernel (Vm × η)) (fd : Fd) :
    Still O k (releaseFd (vmServices O) i k fd) := by
  unfold releaseFd
  split
  · exact .refl k
  · exact (Still.call k fun _ _ h => h.heapMoves (hO.filePut _ _ h.owned)).trans
      (.modify rfl fun _ h => h)

theorem still_taskReleaseFds : Still O k (taskReleaseFds (vmServices O) k i) :=
  .foldl (fun k fd => still_releaseFd hO i k fd) _ k

theorem still_shareFd (parent : Task) (slot : Pid) (k : Kernel (Vm × η)) (fd : Fd) :
    Still O k (shareFd (vmServices O) parent slot k fd) := by
  unfold shareFd
  split
  · exact .modify rfl fun _ h => h
  · exact (Still.call k fun _ _ h => h.files (hO.fileGet _ _)).trans (.modify rfl fun _ h => h)

theorem still_freePendingKstack : Still O k (freePendingKstack (vmServices O) k i) := by
  unfold freePendingKstack
  split
  · exact .refl k
  · exact (still_kfree hO k _).trans (.modify rfl fun _ h => h)

theorem still_freeKernelStack : Still O k (freeKernelStack (vmServices O) k i) := by
  unfold freeKernelStack
  split
  · exact .refl k
  · exact (still_kfree hO k _).trans (.modify rfl fun _ h => h)

theorem still_freeStack : Still O k (freeStack (vmServices O) k i) := by
  unfold freeStack
  split
  · exact (still_kfree hO k _).trans (.modify rfl fun _ h => h)
  · exact .modify rfl fun _ h => h

omit hO in
theorem still_need (need : Bool) :
    Still O k { k with needReschedule := need } := ⟨rfl, rfl, rfl, id, fun _ _ h => h⟩

omit hO in
theorem SameButLinks.still {k : Kernel (Vm × η)} {tasks : Pid → Task}
    (h : SameButLinks k.tasks tasks) : Still O k (k.setTasks tasks) := by
  refine .setTasks (fun i => ?_) fun hz => ?_
  · rw [h i]
    rfl
  · rw [h idle] at hz
    exact hz

/-- A task that ends keeps its address space until it is reaped. -/
theorem still_die {k k' : Kernel (Vm × η)} {d : Pid} {code : Int}
    (hd : (k.tasks d).state ≠ .unused) (hidle : d ≠ idle)
    (h : die (vmServices O) k d code = some k') : Still O k k' := by
  unfold die at h
  obtain ⟨tasks, htasks, rfl⟩ := map_eq_some_iff.mp h
  have h1 : Still O k (k.setTasks tasks) := (SameButLinks.taskReparentChildren htasks).still
  have h2 := (h1.trans (still_taskReleaseFds hO _ d)).trans (still_freePendingKstack hO _ d)
  refine h2.trans (.modify ?_ fun heq => absurd heq hidle)
  have hspace := congrFun h2.spaces d
  rw [show k.spaces d = _ from space_used hd] at hspace
  obtain ⟨hused, -⟩ := space_eq_some hspace
  refine space_congr ?_ rfl
  simp [hused]

end Calls

/-! ## The invariant -/

/-- The counts agree with the address spaces of the tasks. A user task runs on its own page
table, and the idle task never ends. -/
structure Steady (O : Outside η) (reserved : Addr → Prop) (k : Kernel (Vm × η)) : Prop where
  framed : Framed O reserved k.spaces k.env
  active : ∀ p, k.currentTask = some p → p ≠ idle → k.spaces p = some k.cr3
  idle_used : k.spaces idle ≠ none
  idle_lives : (k.tasks idle).state ≠ .zombie

theorem Steady.still {O : Outside η} {reserved : Addr → Prop} {k k' : Kernel (Vm × η)}
    (h : Steady O reserved k) (hs : Still O k k') : Steady O reserved k' := by
  refine ⟨?_, fun p hp hne => ?_, ?_, fun hz => h.idle_lives (hs.idle hz)⟩
  · rw [hs.spaces]
    exact hs.env _ _ h.framed
  · rw [hs.spaces, hs.cr3]
    exact h.active p (hs.currentTask ▸ hp) hne
  · rw [hs.spaces]
    exact h.idle_used

/-- What holds of a call that is made after boot: `syscall_handler` has checked the arguments of an
exec, and no task is created but by a fork. -/
def Op.Checked : Op → Prop
  | .exec _ argv => ArgsOk argv
  | .create _ _ => False
  | _ => True

instance : DecidablePred Op.Checked
  | .exec _ argv => inferInstanceAs (Decidable (ArgsOk argv))
  | .create _ _ => inferInstanceAs (Decidable False)
  | .fork _ | .exit _ | .kill _ | .wait _ _ | .sleep _ | .yield | .setPriority _ _ | .tick
  | .reschedule _ => inferInstanceAs (Decidable True)

/-- An exec names no file with a segment that reaches past the user half. -/
def Op.OpensUserFile (O : Outside η) (k : Kernel (Vm × η)) : Op → Prop
  | .exec path _ => ∀ data, O.contents k.env.2 path = some data → UserFile data
  | _ => True

section

variable {σ : Type} (k : Kernel σ)

theorem spaces_modify (i : Pid) (f : Task → Task) :
    (k.modify i f).spaces = update k.spaces i (f (k.tasks i)).space :=
  comp_update Task.space k.tasks i _

theorem spaces_put (i : Pid) (t : Task) (e : σ) :
    (k.put i t e).spaces = update k.spaces i t.space :=
  comp_update Task.space k.tasks i _

theorem spaces_call (f : σ → σ) : (k.call f).spaces = k.spaces := rfl

theorem spaces_vmmSwitchPml4 (pml4 : BitVec 64) : (k.vmmSwitchPml4 pml4).spaces = k.spaces := rfl

theorem spaces_tssSetRsp0 (rsp0 : Nat) : (k.tssSetRsp0 rsp0).spaces = k.spaces := rfl

end

section Steps

variable {O : Outside η} {reserved : Addr → Prop} {k k' : Kernel (Vm × η)} {p slot pid : Pid}
  {r : Addr} {e : Vm × η}

theorem space_unused (h : t.state = .unused) : t.space = none := if_pos h

namespace Steady

variable (h : Steady O reserved k)

include h

theorem mem_roots (hp : p ≠ idle) (hr : k.spaces p = some r) : r ∈ rootsOf k.spaces ∧ r ≠ 0 := by
  have hmem : r ∈ rootsOf k.spaces := by
    rw [rootsOf_some hp hr]
    exact mem_cons_self _ _
  have hused := h.framed.forest.managed_table (h.framed.forest.root_pos hmem)
  exact ⟨hmem, hused.1.ne_zero h.framed.forest.accounts.ok⟩

/-- No two tasks share a space. -/
theorem space_ne {r' : Addr} (hp : p ≠ idle) (hc : c ≠ idle) (hne : p ≠ c)
    (hr : k.spaces p = some r) (hr' : k.spaces c = some r') : r ≠ r' := by
  rintro rfl
  have hnodup := Mm.Forest.roots_nodup h.framed.forest
  rw [rootsOf_some hc hr', nodup_cons] at hnodup
  refine hnodup.1 ((mem_filterMap _ _).mpr ⟨p, ?_, ?_⟩)
  · exact Finset.mem_val.mpr (Finset.mem_erase.mpr ⟨hne, Finset.mem_univ p⟩)
  · rw [if_neg hp, hr]

/-- The slot that a new task gets. -/
theorem slot_ne_idle (hslot : (k.tasks slot).state = .unused) : slot ≠ idle := by
  rintro rfl
  exact h.idle_used (space_unused hslot)

/-- A slot was filled in vain. -/
theorem refused (hslot : (k.tasks slot).state = .unused) (ht : t.state = .unused)
    (hq : AtRest O k.env (rootsOf k.spaces) reserved e) :
    Steady O reserved ((k.modify slot f).put slot t e) := by
  have hspaces : ((k.modify slot f).put slot t e).spaces = k.spaces := by
    rw [spaces_put, spaces_modify, update_idem, space_unused ht,
      ← space_unused hslot]
    exact update_eq_self slot k.spaces
  have hidle : ((k.modify slot f).put slot t e).tasks idle = k.tasks idle := by
    have hne := (h.slot_ne_idle hslot).symm
    rw [put_tasks, update_of_ne hne, modify_tasks, if_neg hne]
  refine ⟨?_, fun p hp hne => ?_, ?_, ?_⟩
  · rw [hspaces]
    exact h.framed.of_atRest hq
  · rw [hspaces]
    exact h.active p hp hne
  · rw [hspaces]
    exact h.idle_used
  · rw [hidle]
    exact h.idle_lives

/-- A slot gets the space that was built for it. -/
theorem filled (hslot : (k.tasks slot).state = .unused)
    (hr : Raised O k.env (rootsOf k.spaces) reserved r e)
    (hspaces : k'.spaces = update k.spaces slot (some r)) (henv : k'.env = e)
    (hcurrent : k'.currentTask = k.currentTask) (hcr3 : k'.cr3 = k.cr3)
    (hidle : (k'.tasks idle).state = (k.tasks idle).state) : Steady O reserved k' := by
  have hne := h.slot_ne_idle hslot
  have hnone : k.spaces slot = none := space_unused hslot
  have hroots : rootsOf k'.spaces = r ::ₘ rootsOf k.spaces := by
    rw [hspaces, rootsOf_some hne (update_self slot (some r) k.spaces), othersOf_update,
      rootsOf_none hnone]
  have hsame (p : Pid) (hp : k.spaces p ≠ none) : k'.spaces p = k.spaces p := by
    have hps : p ≠ slot := by
      rintro rfl
      exact hp hnone
    rw [hspaces, update_of_ne hps]
  refine ⟨?_, fun p hp hpi => ?_, ?_, ?_⟩
  · refine h.framed.change ?_ ?_ (fun x hx => ?_) (hsame idle h.idle_used)
    · rw [hroots, henv]
      exact hr.beside.forest
    · rw [henv]
      exact hr.beside.apart
    · rw [henv]
      exact hr.beside.kept.pages x (.inr hx)
  · have hactive := h.active p (hcurrent ▸ hp) hpi
    rw [hsame p (by rw [hactive]; exact some_ne_none _), hactive, hcr3]
  · rw [hsame idle h.idle_used]
    exact h.idle_used
  · rw [hidle]
    exact h.idle_lives

/-- The running task takes a new space and gives the old one back. -/
theorem moved {old cr3 : Addr} (hcurrent : k.currentTask = some pid) (hidle : pid ≠ idle)
    (hold : k.spaces pid = some old) (hr : Raising O k.env (rootsOf k.spaces) reserved cr3 0 e)
    (hspaces : k'.spaces = update k.spaces pid (some cr3))
    (henv : k'.env = discardSpace (vmServices O) old e) (hsame : k'.currentTask = k.currentTask)
    (hcr3 : k'.cr3 = cr3) (hstate : (k'.tasks idle).state = (k.tasks idle).state) :
    Steady O reserved k' := by
  have hother : k'.spaces idle = k.spaces idle := by
    rw [hspaces, update_of_ne (Ne.symm hidle)]
  have hforest := hr.building.forest
  rw [rootsOf_some hidle hold, cons_swap] at hforest
  refine ⟨?_, fun p hp _ => ?_, ?_, ?_⟩
  · rw [henv]
    refine h.framed.discard ?_ hr.building.apart
      (fun x hx => hr.building.kept.pages x (.inr hx)) hother
    rw [hspaces, rootsOf_some hidle (update_self pid (some cr3) k.spaces), othersOf_update]
    exact hforest
  · cases hcurrent.symm.trans (hsame.symm.trans hp)
    rw [hspaces, update_self, hcr3]
  · rw [hother]
    exact h.idle_used
  · rw [hstate]
    exact h.idle_lives

end Steady

variable (hO : O.Ok)

include hO

namespace Steady

variable (h : Steady O reserved k) {k₁ : Kernel (Vm × η)}

include h

/-- The child gets its space, its descriptors and its place in the list of its parent. -/
theorem forkCommit (hslot : (k.tasks slot).state = .unused) (hne : pid ≠ slot)
    (hpid : (k.tasks pid).cr3 = k.cr3)
    (hr : Raised O k.env (rootsOf k.spaces) reserved (k₁.tasks slot).cr3 k₁.env)
    (htasks : ∀ i, i ≠ slot → k₁.tasks i = k.tasks i) (hcurrent : k₁.currentTask = k.currentTask)
    (frameRip : Nat) : Steady O reserved (forkCommit (vmServices O) k₁ pid slot frameRip) := by
  unfold Process.forkCommit
  have hsame (i : Pid) (hi : i ≠ slot) : k₁.spaces i = k.spaces i := congrArg space (htasks i hi)
  have hchild : Steady O reserved ((k₁.vmmSwitchPml4 (k₁.tasks pid).cr3).modify slot
      (childTask (k₁.tasks pid) pid frameRip)) := by
    refine h.filled hslot hr ?_ rfl hcurrent ?_ ?_
    · rw [spaces_modify]
      funext i
      by_cases hi : i = slot
      · subst hi
        rw [update_self, update_self]
        rfl
      · rw [update_of_ne hi, update_of_ne hi]
        exact hsame i hi
    · show (k₁.tasks pid).cr3 = k.cr3
      rw [htasks pid hne, hpid]
    · have hidle := (h.slot_ne_idle hslot).symm
      rw [modify_tasks, if_neg hidle]
      exact congrArg state (htasks idle hidle)
  have hshared := hchild.still
    (.foldl (still_shareFd hO (k₁.tasks pid) slot) (List.finRange maxFds) _)
  exact hshared.still ((Still.modify rfl fun _ h => h).trans (.modify rfl fun _ h => h))

theorem taskFork (hc : Calling k pid) (frameRip : Nat) :
    Steady O reserved (taskFork (vmServices O) k frameRip).2 := by
  obtain ⟨hcurrent, hidle, hrunning⟩ := hc
  have hspace : k.spaces pid = some (k.tasks pid).cr3 := space_used (by rw [hrunning]; decide)
  have hcr3 : (k.tasks pid).cr3 = k.cr3 :=
    some.inj (hspace.symm.trans (h.active pid hcurrent hidle))
  have hcount (x : Addr) : treeLeaves k.env.1.mem (rootsOf k.spaces) x < 255 := by
    have hforest := h.framed.forest
    rw [rootsOf_spaces] at hforest ⊢
    exact leaves_lt hforest x
  rcases taskFork_outcome hO hcurrent (h.mem_roots hidle hspace).1 hcount h.framed.atRest frameRip with
    hsame | ⟨slot, f, t, e, hslot, ht, ⟨hrun, hq⟩ | ⟨hrun, hraised⟩⟩
  · rw [hsame]
    exact h
  · rw [hrun]
    exact h.refused hslot ht hq
  · have hne : pid ≠ slot := by
      rintro rfl
      rw [hslot] at hrunning
      cases hrunning
    rw [hrun]
    refine h.forkCommit hO hslot hne hcr3 ?_ (fun i hi => ?_) ?_ frameRip
    · rw [put_tasks, update_self]
      exact hraised
    · rw [put_tasks, update_of_ne hi, modify_tasks, if_neg hi]
    · rfl

theorem taskCreateArgs (hcurrent : k.currentTask ≠ none) (name : List UInt8) (entry arg : Nat) :
    Steady O reserved (taskCreateArgs (vmServices O) k name entry arg).2 := by
  rcases taskCreateArgs_outcome hO h.framed.atRest name entry arg with
    hsame | ⟨slot, f, t, e, hslot, ht, ⟨hrun, hq⟩ | ⟨⟨-, hrun⟩, hraised⟩⟩
  · rw [hsame]
    exact h
  · rw [hrun]
    exact h.refused hslot ht hq
  · rw [hrun hcurrent]
    refine h.filled hslot hraised ?_ rfl rfl rfl ?_
    · rw [spaces_modify, spaces_put, spaces_modify, update_idem, update_idem,
        put_tasks, update_self]
      rfl
    · have hidle := (h.slot_ne_idle hslot).symm
      rw [modify_tasks, if_neg hidle, put_tasks, update_of_ne hidle,
        modify_tasks, if_neg hidle]

theorem commitImage {cr3 : Addr} (hcurrent : k.currentTask = some pid) (hidle : pid ≠ idle)
    (hpid : (k.tasks pid).state ≠ .unused) (htasks : k₁.tasks = k.tasks)
    (hsame : k₁.currentTask = k.currentTask)
    (hr : Raising O k.env (rootsOf k.spaces) reserved cr3 0 k₁.env) (path : List UInt8)
    (entry kstack : Nat) :
    Steady O reserved (commitImage (vmServices O) k₁ pid path cr3 entry kstack) := by
  unfold Process.commitImage
  refine Steady.still ?_ ((still_freePendingKstack hO _ pid).trans (.modify rfl fun _ h => h))
  have hold : k.spaces pid = some (k₁.tasks pid).cr3 := by
    rw [htasks]
    exact space_used hpid
  refine h.moved hcurrent hidle hold hr ?_ rfl hsame rfl ?_
  · rw [spaces_tssSetRsp0, spaces_call, spaces_vmmSwitchPml4, spaces_modify,
      space_used (by rw [htasks]; exact hpid)]
    unfold spaces
    rw [htasks]
  · simp [tssSetRsp0, vmmSwitchPml4, Ne.symm hidle, htasks]

theorem doExec (hc : Calling k pid) {path : List UInt8} {argv : List (List UInt8)}
    (hargs : ArgsOk argv) (hfile : ∀ data, O.contents k.env.2 path = some data → UserFile data) :
    Steady O reserved (doExec (vmServices O) k path argv).2 := by
  obtain ⟨hcurrent, hidle, hrunning⟩ := hc
  rcases hload : loadImage (vmServices O) k path argv with ⟨res, e⟩
  rcases raising_loadImage hO hfile hargs h.framed.atRest hload with
    ⟨rfl, hq⟩ | ⟨cr3, entry, kstack, rfl, -, -, hraising⟩
  · simp only [Process.doExec, hload]
    exact ⟨h.framed.of_atRest hq, h.active, h.idle_used, h.idle_lives⟩
  · simp only [Process.doExec, hload, hcurrent]
    refine h.commitImage hO hcurrent hidle ?_ ?_ ?_ ?_ path entry kstack
    · rw [hrunning]
      decide
    · rfl
    · exact hcurrent.symm
    · exact hraising

/-- A reaped task gives its space back; it is not the active one, since that belongs to the
caller. -/
theorem reap (hp : k.currentTask = some p) (hidle : p ≠ idle) (hc : (k.tasks c).state = .zombie)
    (hne : c ≠ p) (hrun : reap (vmServices O) k p c = some k') : Steady O reserved k' := by
  unfold Process.reap at hrun
  obtain ⟨tasks, htasks, rfl⟩ := map_eq_some_iff.mp hrun
  have hlinks := SameButLinks.taskRemoveChild htasks
  have h1 := h.still hlinks.still
  have hstate : ((k.setTasks tasks).tasks c).state = .zombie := by
    rw [setTasks_tasks, hlinks c]
    exact hc
  have hcurrent : (k.setTasks tasks).currentTask = some p := hp
  generalize k.setTasks tasks = k₁ at h1 hstate hcurrent ⊢
  have hci : c ≠ idle := by
    rintro rfl
    exact h1.idle_lives hstate
  have hspace : k₁.spaces c = some (k₁.tasks c).cr3 := space_used (by rw [hstate]; decide)
  have hzero := (h1.mem_roots hci hspace).2
  have hactive : (k₁.tasks c).cr3 ≠ k₁.cr3 := by
    have hp := h1.active p hcurrent hidle
    exact (h1.space_ne hidle hci (Ne.symm hne) hp hspace).symm
  -- the space of the child is given back before its slot is free
  have hroots : rootsOf (update k₁.spaces c none) = othersOf c k₁.spaces := by
    rw [rootsOf_none (update_self c none k₁.spaces), othersOf_update]
  have hclean : cleanupAddressSpace (vmServices O) k₁ c =
      (k₁.call (discardSpace (vmServices O) (k₁.tasks c).cr3)).modify c
        fun t => { t with cr3 := 0 } := by
    rw [cleanupAddressSpace, if_neg hzero, if_neg hactive]
    rfl
  unfold taskCleanup
  generalize cleanupAddressSpace (vmServices O) k₁ c = k₂ at hclean ⊢
  have hframed : Framed O reserved (update k₁.spaces c none) k₂.env := by
    rw [hclean]
    refine h1.framed.discard ?_ h1.framed.apart (fun _ _ => rfl)
      (update_of_ne (Ne.symm hci) _ _)
    rw [hroots, ← rootsOf_some hci hspace]
    exact h1.framed.forest
  have hmodify : k₂.spaces = update k₁.spaces c (some 0) := by
    rw [hclean, spaces_modify, spaces_call, call_tasks, space_used (by rw [hstate]; decide)]
  have hsame : k₂.currentTask = k₁.currentTask ∧ k₂.cr3 = k₁.cr3 ∧
      k₂.tasks idle = k₁.tasks idle := by
    simp [hclean, Ne.symm hci]
  have hstill := ((still_freeKernelStack hO k₂ c).trans (still_freeStack hO _ c)).trans
    ((still_freePendingKstack hO _ c).trans (still_taskReleaseFds hO _ c))
  generalize taskReleaseFds (vmServices O) _ c = k₃ at hstill ⊢
  have hspaces (f : Task → Task) (hf : (f (k₃.tasks c)).space = none) :
      (k₃.modify c f).spaces = update k₁.spaces c none := by
    rw [spaces_modify, hf, hstill.spaces, hmodify, update_idem]
  refine ⟨?_, fun q hq hqi => ?_, ?_, fun hz => ?_⟩
  · rw [hspaces _ rfl]
    exact hstill.env _ _ hframed
  · obtain rfl : p = q := by
      rw [modify_currentTask, hstill.currentTask, hsame.1, hcurrent] at hq
      exact some.inj hq
    rw [hspaces _ rfl, update_of_ne (Ne.symm hne), modify_cr3, hstill.cr3, hsame.2.1]
    exact h1.active p hcurrent hidle
  · rw [hspaces _ rfl, update_of_ne (Ne.symm hci)]
    exact h1.idle_used
  · rw [modify_tasks, if_neg (Ne.symm hci)] at hz
    have hz' := hstill.idle hz
    rw [hsame.2.2] at hz'
    exact h1.idle_lives hz'

end Steady

/-! ### The scheduler -/

omit hO in
theorem unscheduled_space : Unscheduled space := by
  intro t s _ _ hs
  refine space_congr ?_ rfl
  rcases hs with rfl | ⟨hs, ht⟩
  · rfl
  · exact iff_of_false hs.1 ht.1

omit hO in
theorem unscheduled_zombie : Unscheduled fun t => t.state = .zombie := unscheduled_state (by decide)

omit hO in
theorem switchTo_cr3 {σ : Type} (k : Kernel σ) {next : Pid} (h : (k.tasks next).cr3 ≠ 0) :
    (switchTo k next).cr3 = (k.tasks next).cr3 := by
  unfold switchTo
  simp only
  split
  · next hzero =>
    simp only [modify_tasks, if_true] at hzero
    exact absurd hzero h
  · simp [tssSetRsp0, vmmSwitchPml4, setCurrent]

omit hO in
/-- The task that is switched to runs on its own page table. -/
theorem Steady.switchTo (h : Steady O reserved k) {next : Pid}
    (hnext : (k.tasks next).state = .ready) : Steady O reserved (switchTo k next) := by
  have hspaces : (Process.switchTo k next).spaces = k.spaces :=
    funext fun i => unscheduled_space.switchTo (fun _ _ => rfl) hnext i
  refine ⟨?_, fun p hp hne => ?_, ?_, fun hz =>
    h.idle_lives ((unscheduled_zombie.switchTo (fun _ _ => rfl) hnext idle).mp hz)⟩
  · rw [hspaces, switchTo_env]
    exact h.framed
  · rw [switchTo_currentTask] at hp
    cases hp
    have hspace : k.spaces next = some (k.tasks next).cr3 := space_used (by rw [hnext]; decide)
    rw [hspaces, hspace, switchTo_cr3 k (h.mem_roots hne hspace).2]
  · rw [hspaces]
    exact h.idle_used

theorem Steady.doSchedule (h : Steady O reserved k) :
    Steady O reserved (doSchedule (vmServices O) k) := by
  have hspace := unscheduled_space.readyTasks (fun _ _ => rfl) k
  have hzombie := unscheduled_zombie.readyTasks (fun _ _ => rfl) k idle
  refine doSchedule_rule _ (fun tasks htasks => ?_)
    (fun k1 p h1 => h1.still (still_freePendingKstack hO k1 p))
    fun _ _ hnext h1 => h1.switchTo hnext
  rw [htasks] at hspace hzombie
  exact h.still (.setTasks hspace hzombie.mp)

theorem Steady.reschedule (h : Steady O reserved k) (rsp : Nat) :
    Steady O reserved (reschedule (vmServices O) k rsp) := by
  have hsaved : Still O k { k with savedRsp := rsp } := ⟨rfl, rfl, rfl, id, fun _ _ hf => hf⟩
  exact ((h.still hsaved).doSchedule hO).still (still_need _ false)

theorem Steady.syscall (h : Steady O reserved k) (hc : Calling k p) {op : Op}
    (hchecked : op.Checked) (hfile : op.OpensUserFile O k)
    (hrun : syscall (vmServices O) k op = some k') : Steady O reserved k' := by
  have hneed : Still O k { k with needReschedule := true } := still_need k true
  cases called_syscall (vmServices O) hc.current hrun with
  | same => exact h
  | fork frameRip => exact h.taskFork hO hc frameRip
  | exec path argv => exact h.doExec hO hc hchecked hfile
  | exit died =>
    exact h.still ((still_die hO (by simp [hc.running]) hc.not_idle died).trans (still_need _ true))
  | kill _ _ not_idle alive died => exact h.still (still_die hO alive.1 not_idle died)
  | reap c _ zombie _ reaped =>
    refine h.reap hO hc.current hc.not_idle zombie ?_ reaped
    rintro rfl
    rw [hc.running] at zombie
    cases zombie
  | block =>
    refine h.still (hneed.trans (.modify ?_ fun heq => absurd heq hc.not_idle))
    exact space_congr (by simp [hc.running]) rfl
  | sleep ms =>
    refine h.still (hneed.trans (.modify ?_ fun heq => absurd heq hc.not_idle))
    exact space_congr (by simp [hc.running]) rfl
  | yield => exact h.still hneed
  | setPriority i => exact h.still (.modify rfl fun _ hz => hz)

omit hO in
theorem Steady.schedulerTick (h : Steady O reserved k) : Steady O reserved (schedulerTick k) := by
  exact h.still ⟨funext fun i => unscheduled_space.wakeSleeper _ (k.tasks i), rfl, rfl,
    (unscheduled_zombie.wakeSleeper _ (k.tasks idle)).mp, fun _ _ hf => hf⟩

theorem Steady.step (h : Steady O reserved k) {op : Op} (hchecked : op.Checked)
    (hfile : op.OpensUserFile O k) (hrun : step (vmServices O) k op = some k') :
    Steady O reserved k' := by
  rcases step_cases hrun with
    ⟨p, hc, hcall⟩ | ⟨rfl, rfl⟩ | ⟨rsp, rfl, rfl⟩ | ⟨name, entry, rfl, -⟩
  · exact h.syscall hO hc hchecked hfile hcall
  · exact h.schedulerTick
  · exact h.reschedule hO rsp
  · exact hchecked.elim

end Steps

end Crius.Process
