import Crius.Process.ChildList
import Crius.Process.Effect
import Crius.Process.Rollback
import Crius.Syscall.UserCopy

/-!
# The wait call

`SYS_WAIT` lets `task_wait` reap a child and looks at the status pointer only then. If the
pointer is refused, the call fails with `-EFAULT` and the child is gone with its status.

A caller that blocks is resumed inside of `task_wait`, so the call is a sequence of passes
with steps of other tasks between them, and each pass is modelled on its own.
-/
namespace Crius.Syscall

open Lib Mm Elf Process List Finset

variable {η : Type}

/-- A store of one byte to a user address, through the page table `cr3`. -/
def storeUserByte (cr3 : Addr) (vm : Vm) (addr : Addr) (b : Byte) : Vm :=
  storeByte vm (vmmGetPhys vm cr3 (addr &&& pageMask) + (addr &&& 0xFFF)) b

/-- `*ustatus = status` -/
def storeInt (cr3 : Addr) (vm : Vm) (addr : Addr) (n : Int) : Vm :=
  (List.range 4).foldl (fun vm i => storeUserByte cr3 vm (addr + BitVec.ofNat 64 i)
    ((BitVec.ofInt 32 n).extractLsb' (8 * i) 8)) vm

/-- What `SYS_WAIT` does once `task_wait` has returned `ret`, which is not negative. -/
def deliverStatus (ret : Int) (ustatus : Addr) (status : Int) (k : Kernel (Vm × η)) :
    Option Int × Kernel (Vm × η) :=
  if ustatus = 0 then (some ret, k)
  else if validateUserPtrWritable k.env.1 k.cr3 ustatus 4 then
    (some ret, k.call fun e => (storeInt k.cr3 e.1 ustatus status, e.2))
  else (some (-Abi.EFAULT), k)

/-- One pass of `SYS_WAIT`; the result is `none` while the caller blocks. The local variable
`status` is not set when there is nothing to wait for yet, and is `stale` then. -/
def sysWait (O : Outside η) (stale pid : Int) (ustatus : Addr) (options : Int)
    (k : Kernel (Vm × η)) : Option (Option Int × Kernel (Vm × η)) :=
  (taskWait (vmServices O) k pid options).map fun
    | (.noChild, k) => (some (-Abi.ECHILD), k)
    | (.blocks, k) => (none, k)
    | (.again, k) => deliverStatus 0 ustatus stale k
    | (.reaped child status, k) => deliverStatus child.val ustatus status k

/-- A running user task with its own page table and a sound list of children. The idle task
never ends. -/
structure Waiting (k : Kernel (Vm × η)) (p : Pid) : Prop where
  calling : Calling k p
  active : k.cr3 = (k.tasks p).cr3
  children : ∃ l, ChildList k.tasks p l
  idle_lives : (k.tasks idle).state ≠ .zombie

/-- A child of `p` that the call would reap. -/
def Reapable (k : Kernel (Vm × η)) (p : Pid) (pid : Int) (c : Pid) : Prop :=
  (k.tasks c).state = .zombie ∧ (k.tasks c).parentPid = some p ∧ waitMatches pid c

instance (k : Kernel (Vm × η)) (p : Pid) (pid : Int) (c : Pid) : Decidable (Reapable k p pid c) :=
  inferInstanceAs (Decidable (_ ∧ _ ∧ _))

/-! ## Cleaning up leaves the other page tables alone -/

/-- Memory is accounted for, and the tables of the spaces `roots` are as in `vm₀`. -/
structure Undisturbed (O : Outside η) (vm₀ : Vm) (roots : Multiset Addr) (reserved : Addr → Prop)
    (e : Vm × η) : Prop where
  forest : Forest e.1 roots 0 (fun _ => 0) fun x => O.heap e.2 x ∨ reserved x
  apart : ∀ x, O.heap e.2 x → ¬reserved x
  tables : ∀ x, 0 < treeTables vm₀.mem roots x → e.1.mem x = vm₀.mem x

section Cleanup

variable {O : Outside η} {vm₀ : Vm} {roots : Multiset Addr} {reserved : Addr → Prop} {e e' : Vm × η}

theorem Undisturbed.owned (h : Undisturbed O vm₀ roots reserved e) : O.Owned e :=
  ⟨roots, 0, _, reserved, h.forest, h.apart⟩

theorem Undisturbed.heapMoves (h : Undisturbed O vm₀ roots reserved e)
    (hm : HeapMoves e.1 (O.heap e.2) e'.1 (O.heap e'.2)) : Undisturbed O vm₀ roots reserved e' := by
  obtain ⟨hforest, hapart, hframe⟩ := h.forest.heapMoves h.apart hm
  refine ⟨hforest, hapart, fun x hx => ?_⟩
  have hpos : 0 < treeTables e.1.mem roots x := by
    rw [(trees_congr h.tables).1]
    exact hx
  have hnot : ¬O.heap e.2 x := by
    intro hheap
    have hzero := (h.forest.accounts.apart x (.inl hheap)).2.2
    omega
  rw [(hframe x (h.forest.managed_table hpos) hnot).2.2]
  exact h.tables x hx

/-- The space of an ended task is freed. -/
theorem undisturbed_discard {r : Addr}
    (h : Forest e.1 (r ::ₘ roots) 0 (fun _ => 0) fun x => O.heap e.2 x ∨ reserved x)
    (hapart : ∀ x, O.heap e.2 x → ¬reserved x) :
    Undisturbed O e.1 roots reserved ((vmmFreeUserPages r e.1).freePage r, e.2) := by
  obtain ⟨hfreed, hbare, hmem, -⟩ := h.freeUserPages fun x _ => .inl rfl
  refine ⟨(hfreed.uproot hbare).free_loose, hapart, fun x hx => ?_⟩
  rw [Vm.freePage_mem]
  exact hmem x (h.ne_root hx)

/-- A predicate on memory that freeing on the heap keeps. -/
theorem env_freeStacks {P : Vm × η → Prop} (hkfree : ∀ ptr e, P e → P (O.kfree ptr e))
    {k k' : Kernel (Vm × η)} {i : Pid} (h : P k.env) (hfree : freePendingKstack (vmServices O)
      (freeStack (vmServices O) (freeKernelStack (vmServices O) k i) i) i = k') :
    P k'.env ∧ k'.cr3 = k.cr3 := by
  have hkernel : P (freeKernelStack (vmServices O) k i).env ∧
      (freeKernelStack (vmServices O) k i).cr3 = k.cr3 := by
    rw [freeKernelStack]
    split
    · exact ⟨h, rfl⟩
    · exact ⟨hkfree _ _ h, rfl⟩
  generalize freeKernelStack (vmServices O) k i = k1 at hkernel hfree
  have hstack : P (freeStack (vmServices O) k1 i).env ∧
      (freeStack (vmServices O) k1 i).cr3 = k.cr3 := by
    rw [freeStack]
    split
    · exact ⟨hkfree _ _ hkernel.1, hkernel.2⟩
    · exact hkernel
  rw [← hfree, freePendingKstack]
  split
  · exact hstack
  · exact ⟨hkfree _ _ hstack.1, hstack.2⟩

/-- A predicate on memory that closing files keeps. -/
theorem env_taskReleaseFds {P : Vm × η → Prop} (hput : ∀ f e, P e → P (O.filePut f e))
    {k : Kernel (Vm × η)} (i : Pid) (h : P k.env) :
    P (taskReleaseFds (vmServices O) k i).env ∧ (taskReleaseFds (vmServices O) k i).cr3 = k.cr3 := by
  rw [taskReleaseFds]
  generalize finRange maxFds = fds
  induction fds generalizing k with
  | nil => exact ⟨h, rfl⟩
  | cons fd fds ih =>
    have hround : P (releaseFd (vmServices O) i k fd).env ∧
        (releaseFd (vmServices O) i k fd).cr3 = k.cr3 := by
      rw [releaseFd]
      split
      · exact ⟨h, rfl⟩
      · exact ⟨hput _ _ h, rfl⟩
    rw [foldl_cons]
    exact ⟨(ih hround.1).1, (ih hround.1).2.trans hround.2⟩

end Cleanup

section Reap

variable {O : Outside η} {reserved : Addr → Prop} {k k' : Kernel (Vm × η)} {p c : Pid} {pid : Int}
  {S : Services (Vm × η)}

/-- The PML4s of the tasks, with that of one of them first. -/
theorem taskRoots_split (tasks : Pid → Task) (hc : c ≠ idle) (hs : (tasks c).state ≠ .unused) :
    ∃ rest, taskRoots tasks = (tasks c).cr3 ::ₘ rest ∧
      ∀ i, i ≠ idle → i ≠ c → (tasks i).state ≠ .unused → (tasks i).cr3 ∈ rest := by
  have hin : c ∈ (univ.filter fun i => i ≠ idle ∧ (tasks i).state ≠ .unused) :=
    mem_filter.mpr ⟨mem_univ c, hc, hs⟩
  refine ⟨((univ.filter fun i => i ≠ idle ∧ (tasks i).state ≠ .unused).erase c).val.map
    fun i => (tasks i).cr3, ?_, fun i hi hne hsi => ?_⟩
  · rw [taskRoots, ← Multiset.map_cons (fun i => (tasks i).cr3), erase_val,
      Multiset.cons_erase (mem_val.mpr hin)]
  · apply Multiset.mem_map_of_mem (fun i => (tasks i).cr3)
    exact mem_val.mpr (mem_erase.mpr
      ⟨hne, mem_filter.mpr ⟨mem_univ i, hi, hsi⟩⟩)

/-- Two tasks do not share a PML4. -/
theorem root_ne {r r' : Addr} {roots : Multiset Addr} {lost : Addr → ℕ} {held : Addr → Prop} {vm : Vm}
    (h : Forest vm (r ::ₘ roots) 0 lost held) (hr' : r' ∈ roots) : r ≠ r' := by
  rintro rfl
  exact (Multiset.nodup_cons.mp h.roots_nodup).1 hr'

section

variable (hO : O.Ok) (h : Consistent O reserved k) (hw : Waiting k p) (hc : Reapable k p pid c)
  (hreap : reap (vmServices O) k p c = some k')

include hO h hw hc hreap

/-- The page tables of the caller after a child has been cleaned up. -/
theorem undisturbed_reap :
    k'.cr3 = k.cr3 ∧ ∀ q, leafAt k'.env.1.mem k.cr3 q = leafAt k.env.1.mem k.cr3 q := by
  obtain ⟨hzombie, -, -⟩ := hc
  have hci : c ≠ idle := fun heq => hw.idle_lives (heq ▸ hzombie)
  have hpc : p ≠ c := by
    rintro rfl
    rw [hw.calling.running] at hzombie
    cases hzombie
  obtain ⟨rest, hroots, hothers⟩ := taskRoots_split k.tasks hci (by rw [hzombie]; decide)
  have hp : k.cr3 ∈ rest := by
    rw [hw.active]
    exact hothers p hw.calling.not_idle hpc (by rw [hw.calling.running]; decide)
  have hforest := h.forest
  rw [hroots] at hforest
  have hself := Multiset.mem_cons_self (k.tasks c).cr3 rest
  have hnz : (k.tasks c).cr3 ≠ 0 :=
    (hforest.managed_table (hforest.root_pos hself)).1.ne_zero hforest.ok
  have hne := root_ne hforest hp
  obtain ⟨tasks, hremove, rfl⟩ := Option.map_eq_some_iff.mp hreap
  have hcr3 : (tasks c).cr3 = (k.tasks c).cr3 := by
    rw [SameButLinks.taskRemoveChild hremove c]
  have hspace : (cleanupAddressSpace (vmServices O) (k.setTasks tasks) c).env =
      ((vmmFreeUserPages (k.tasks c).cr3 k.env.1).freePage (k.tasks c).cr3, k.env.2) ∧
      (cleanupAddressSpace (vmServices O) (k.setTasks tasks) c).cr3 = k.cr3 := by
    have hother : (k.tasks c).cr3 ≠ (k.setTasks tasks).cr3 := hne
    rw [cleanupAddressSpace, Kernel.setTasks_tasks, hcr3, if_neg hnz, if_neg hother]
    exact ⟨discardSpace_eq O _ k.env, rfl⟩
  rw [taskCleanup]
  generalize cleanupAddressSpace (vmServices O) (k.setTasks tasks) c = k1 at hspace ⊢
  have hstart : Undisturbed O k.env.1 rest reserved k1.env := by
    rw [hspace.1]
    exact undisturbed_discard hforest h.apart
  rcases hfree : freePendingKstack (vmServices O) _ c with k2
  obtain ⟨hfreed, hfreed_cr3⟩ := env_freeStacks
    (fun ptr e (he : Undisturbed O k.env.1 rest reserved e) =>
      he.heapMoves (hO.kfree ptr e he.owned).heap) hstart hfree
  obtain ⟨hclosed, hcr3'⟩ := env_taskReleaseFds
    (fun f e (he : Undisturbed O k.env.1 rest reserved e) => he.heapMoves (hO.filePut f e he.owned))
    c hfreed
  refine ⟨(hcr3'.trans hfreed_cr3).trans hspace.2, fun q => ?_⟩
  show leafAt (taskReleaseFds (vmServices O) k2 c).env.1.mem k.cr3 q = _
  refine leafAt_congr (fun x hx => ?_) q
  obtain ⟨n, hb⟩ := Radix.tableCount_pos.mp hx
  exact hclosed.tables x (treeTables_pos hp hb)

/-- Reaping a child does not change what the caller may write. -/
theorem validate_reap (ptr size : Addr) :
    validateUserPtrWritable k'.env.1 k'.cr3 ptr size =
      validateUserPtrWritable k.env.1 k.cr3 ptr size := by
  obtain ⟨hcr3, hleaves⟩ := undisturbed_reap hO h hw hc hreap
  have hframe : IsFrame k.cr3 := by
    rw [hw.active]
    exact h.isFrame (by rw [hw.calling.running]; decide)
  rw [hcr3]
  exact validateRange_congr hframe hleaves pageWritable ptr size

end

theorem reap_unused (h : reap S k p c = some k') : (k'.tasks c).state = .unused := by
  obtain ⟨tasks, -, rfl⟩ := Option.map_eq_some_iff.mp h
  rw [Kernel.modify_tasks, if_pos rfl]

/-! ## The outcomes of a pass -/

/-- The first child that `task_wait` finds. -/
theorem taskWait_reaps (hw : Waiting k p) (hc : Reapable k p pid c) (options : Int) :
    ∃ c' k', Reapable k p pid c' ∧ reap S k p c' = some k' ∧
      taskWait S k pid options = some (.reaped c' (waitStatus (k.tasks c').exitCode), k') := by
  have hin : (finRange maxTasks).find? (fun i => Reapable k p pid i) ≠ none := by
    intro hnone
    have hall := find?_eq_none.mp hnone c (mem_finRange c)
    exact hall (decide_eq_true hc)
  obtain ⟨c', hfound⟩ := Option.ne_none_iff_exists'.mp hin
  have hc' : Reapable k p pid c' := by simpa using find?_some hfound
  obtain ⟨l, hl⟩ := hw.children
  obtain ⟨tasks, hremove, -⟩ := taskRemoveChild_spec c' hl
  refine ⟨c', _, hc', by rw [reap, hremove, Option.map_some], ?_⟩
  rw [taskWait, hw.calling.current]
  dsimp only
  rw [show (finRange maxTasks).find? (fun i => (k.tasks i).state = .zombie ∧
    (k.tasks i).parentPid = some p ∧ waitMatches pid i) = some c' from hfound]
  dsimp only
  rw [reap, hremove]
  rfl

/-- Without a child to reap, the state changes only if the caller blocks. -/
theorem taskWait_quiet (hw : Waiting k p) (hnone : ∀ c, ¬Reapable k p pid c) (options : Int) :
    taskWait S k pid options = some (.noChild, k) ∨
      taskWait S k pid options = some (.again, k) ∨
      taskWait S k pid options = some (.blocks, { k with needReschedule := true }.modify p fun t =>
        { t with state := .blocked, waitForPid := pid }) := by
  have hfind : (finRange maxTasks).find? (fun i => (k.tasks i).state = .zombie ∧
      (k.tasks i).parentPid = some p ∧ waitMatches pid i) = none :=
    find?_eq_none.mpr fun i _ hi => hnone i (by simpa [Reapable] using hi)
  rw [taskWait, hw.calling.current]
  dsimp only
  rw [hfind]
  dsimp only
  split
  · split
    · exact .inr (.inl rfl)
    · exact .inr (.inr rfl)
  · exact .inl rfl

theorem deliverStatus_ne_none (ret status : Int) (ustatus : Addr) (k k' : Kernel (Vm × η)) :
    some (deliverStatus ret ustatus status k) ≠ some (none, k') := by
  intro heq
  have hres := congrArg Prod.fst (Option.some.inj heq)
  rw [deliverStatus] at hres
  split at hres
  · cases hres
  · split at hres <;> cases hres

theorem deliverStatus_ok (ret status : Int) {ustatus : Addr} (k : Kernel (Vm × η))
    (h : ustatus = 0 ∨ validateUserPtrWritable k.env.1 k.cr3 ustatus 4 = true) :
    (deliverStatus ret ustatus status k).1 = some ret := by
  rw [deliverStatus]
  by_cases hzero : ustatus = 0
  · rw [if_pos hzero]
  · rw [if_neg hzero, if_pos (h.resolve_left hzero)]

theorem deliverStatus_fault {ret status : Int} {ustatus : Addr} (k : Kernel (Vm × η))
    (hzero : ustatus ≠ 0) (h : validateUserPtrWritable k.env.1 k.cr3 ustatus 4 = false) :
    deliverStatus ret ustatus status k = (some (-Abi.EFAULT), k) := by
  rw [deliverStatus, if_neg hzero, if_neg (by rw [h]; exact Bool.false_ne_true)]

/-- A pass that returns a negative value has changed nothing. -/
def FailsCleanly (O : Outside η) (stale pid : Int) (ustatus : Addr) (options : Int)
    (k : Kernel (Vm × η)) : Prop :=
  ∀ ret k', sysWait O stale pid ustatus options k = some (some ret, k') → ret < 0 → k' = k

theorem failsCleanly_quiet (hw : Waiting k p) (hnone : ∀ c, ¬Reapable k p pid c)
    (stale : Int) (ustatus : Addr) (options : Int) :
    FailsCleanly O stale pid ustatus options k := by
  intro ret k' hrun hneg
  rw [sysWait] at hrun
  rcases taskWait_quiet (S := vmServices O) hw hnone options with hquiet | hquiet | hquiet
  · rw [hquiet] at hrun
    cases hrun
    rfl
  · rw [hquiet] at hrun
    have hpass := Option.some.inj hrun
    dsimp only at hpass
    by_cases hok : ustatus = 0 ∨ validateUserPtrWritable k.env.1 k.cr3 ustatus 4 = true
    · have hret := deliverStatus_ok 0 stale k hok
      rw [hpass] at hret
      cases hret
      exact absurd hneg (Int.lt_irrefl 0)
    · rw [not_or, Bool.not_eq_true] at hok
      rw [deliverStatus_fault k hok.1 hok.2] at hpass
      exact (Prod.mk.inj hpass).2.symm
  · rw [hquiet] at hrun
    cases hrun

/-- `SYS_WAIT` of a running task: a pass that blocks changes the caller only, and a pass that
fails has changed nothing if and only if the status pointer is null or can be written to, or
no child can be reaped. -/
theorem sysWait_failsCleanly_iff (hO : O.Ok) (h : Consistent O reserved k) (hw : Waiting k p)
    (stale pid : Int) (ustatus : Addr) (options : Int) :
    (∀ k', sysWait O stale pid ustatus options k = some (none, k') →
        k' = { k with needReschedule := true }.modify p fun t =>
          { t with state := .blocked, waitForPid := pid }) ∧
      (FailsCleanly O stale pid ustatus options k ↔
        ustatus = 0 ∨ validateUserPtrWritable k.env.1 k.cr3 ustatus 4 = true ∨
          ∀ c, ¬Reapable k p pid c) := by
  by_cases hnone : ∀ c, ¬Reapable k p pid c
  · refine ⟨fun k' hrun => ?_, fun _ => .inr (.inr hnone),
      fun _ => failsCleanly_quiet hw hnone stale ustatus options⟩
    rw [sysWait] at hrun
    rcases taskWait_quiet (S := vmServices O) hw hnone options with hquiet | hquiet | hquiet
    · rw [hquiet] at hrun
      cases hrun
    · rw [hquiet] at hrun
      exact absurd hrun (deliverStatus_ne_none _ _ _ _ _)
    · rw [hquiet] at hrun
      exact (Prod.mk.inj (Option.some.inj hrun)).2.symm
  · obtain ⟨c, hc⟩ := not_forall_not.mp hnone
    obtain ⟨c', k1, hc', hreap, hwait⟩ := taskWait_reaps (S := vmServices O) hw hc options
    have hvalid := validate_reap hO h hw hc' hreap ustatus 4
    have hpass : sysWait O stale pid ustatus options k =
        some (deliverStatus c'.val ustatus (waitStatus (k.tasks c').exitCode) k1) := by
      rw [sysWait, hwait]
      rfl
    refine ⟨fun k' hrun => ?_, ?_⟩
    · exact absurd (hpass.symm.trans hrun) (deliverStatus_ne_none _ _ _ _ _)
    constructor
    · intro hclean
      by_contra hbad
      rw [not_or, not_or, Bool.not_eq_true] at hbad
      rw [← hvalid] at hbad
      rw [deliverStatus_fault k1 hbad.1 hbad.2.1] at hpass
      have hsame := hclean _ _ hpass (by decide)
      have hunused := reap_unused hreap
      rw [hsame, hc'.1] at hunused
      cases hunused
    · intro hgood ret k' hrun hneg
      rw [← hvalid, ← or_assoc] at hgood
      have hret := deliverStatus_ok c'.val (waitStatus (k.tasks c').exitCode) k1
        (hgood.resolve_right hnone)
      rw [hpass] at hrun
      rw [Option.some.inj hrun] at hret
      obtain rfl := Option.some.inj hret
      exact absurd hneg (Int.not_lt.mpr (Int.natCast_nonneg _))

end Reap

/-! ## A child that is lost -/

theorem two_lt_maxTasks : 2 < maxTasks := by decide

def thirdTask : Pid := ⟨2, two_lt_maxTasks⟩

/-- The init task has a child that has ended with the code 7. -/
def lostChildKernel : Kernel (Vm × Unit) :=
  { lowKernel with
    tasks := fun i =>
      if i = thirdTask then
        { Task.zeroed with
          state := .zombie, cr3 := 0x101000, parentPid := some init, exitCode := 7,
          nextSibling := none, firstChild := none }
      else if i = init then { lowKernel.tasks init with firstChild := some thirdTask }
      else lowKernel.tasks i
    env := ((vmmCreatePml4 lowVm).2, ()) }

theorem consistent_lostChildKernel : Consistent (oneFile []) lowReserved lostChildKernel := by
  have hcreate : (vmmCreatePml4 lowVm).1 = 0x101000 := by decide
  rcases hrun : vmmCreatePml4 lowVm with ⟨child, vm⟩
  rw [hrun] at hcreate
  obtain rfl : child = 0x101000 := hcreate
  have henv : lostChildKernel.env.1 = vm := by
    show (vmmCreatePml4 lowVm).2 = vm
    rw [hrun]
  obtain ⟨-, -, hmem, -, hforest⟩ :=
    (forest_lowVm.createPml4 hrun).resolve_left fun h => absurd h.1 (by decide)
  have hroots : taskRoots lostChildKernel.tasks = 0x101000 ::ₘ {0x100000} := by
    have hset : (univ.filter fun i => i ≠ idle ∧ (lostChildKernel.tasks i).state ≠ .unused) =
        {thirdTask, init} := by decide
    rw [taskRoots, hset]
    rfl
  have hblank (x : Addr) (j : Fin 512) : lostChildKernel.env.1.mem x j = 0 := by
    rw [henv, hmem]
    by_cases hx : x = 0x101000
    · rw [hx, Function.update_self]
    · rw [Function.update_of_ne hx]
      rfl
  refine ⟨?_, fun _ hx => hx.elim, by decide, fun x n hx => ?_⟩
  · rw [hroots, henv]
    exact hforest
  · obtain ⟨-, ⟨rfl, -⟩ | ⟨i, -, hbelow⟩⟩ := hx
    · exact ⟨8, by decide, Nat.le_refl 8, by decide⟩
    · rw [hblank] at hbelow
      have hdead : shape.live (0 : Word) = false := by decide
      exact absurd hbelow (Radix.below_dead hdead)

theorem waiting_lostChildKernel : Waiting lostChildKernel init :=
  ⟨⟨rfl, by decide, rfl⟩, rfl, ⟨[thirdTask], rfl, rfl⟩, by decide⟩

/-- A wait for a task that is no child is refused, and the zombie stays. -/
theorem failsCleanly_lostChildKernel : Reapable lostChildKernel init (-1) thirdTask ∧
    FailsCleanly (oneFile []) 0 3 8 0 lostChildKernel :=
  ⟨by decide, (sysWait_failsCleanly_iff (oneFile_ok []) consistent_lostChildKernel
    waiting_lostChildKernel 0 3 8 0).2.mpr (Or.inr (Or.inr (by decide)))⟩

/-- A wait with a status pointer to an unmapped page fails with `-EFAULT`, and the next wait
finds no child any more. -/
theorem sysWait_loses_child :
    Consistent (oneFile []) lowReserved lostChildKernel ∧ Waiting lostChildKernel init ∧
      (lostChildKernel.tasks thirdTask).state = .zombie ∧
      (sysWait (oneFile []) 0 (-1) 8 0 lostChildKernel).map
        (fun r => (r.1, (r.2.tasks thirdTask).state)) =
        some (some (-Abi.EFAULT), .unused) ∧
      ((sysWait (oneFile []) 0 (-1) 8 0 lostChildKernel).bind fun r =>
        (sysWait (oneFile []) 0 (-1) 0 0 r.2).map (·.1)) = some (some (-Abi.ECHILD)) :=
  ⟨consistent_lostChildKernel, waiting_lostChildKernel, rfl, by decide +kernel, by decide +kernel⟩

end Crius.Syscall
