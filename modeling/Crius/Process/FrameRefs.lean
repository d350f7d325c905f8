import Crius.Process.Accounted
import Crius.Process.ProcTree
import Crius.Process.ChildList
import Crius.Process.ElfLeak

/-!
# Reference counts of frames

Runs of the process system with its memory. Besides the system calls and interrupts of `step`
there are the write faults of the running task. Boot accounts for all memory, and `ExactRefs` says
what the counts are in every state that is reached from there.
-/
namespace Crius.Process

open Fs Mm Lib Run Kernel Multiset Function Option

variable {η : Type}

inductive PagedOp where
  | call (op : Op)
  | fault (cr2 : Addr)

/-- `page_fault_handler` for a write of a user task to a page that is present. A page that is not
copy-on-write, or that cannot be copied, ends the task. -/
def pageFault (O : Outside η) (k : Kernel (Vm × η)) (cr2 : Addr) : Option (Kernel (Vm × η)) :=
  match vmmHandleCowFault k.cr3 (cr2 &&& ~~~0xFFF) k.env.1 with
  | (true, vm) => some { k with env := (vm, k.env.2) }
  | (false, vm) => taskExitCode (vmServices O) { k with env := (vm, k.env.2) } (-Abi.SIGSEGV)

def pagedStep (O : Outside η) (k : Kernel (Vm × η)) : PagedOp → Option (Kernel (Vm × η))
  | .call op => if op.Checked then step (vmServices O) k op else none
  | .fault cr2 => if k.caller.isSome ∧ cr2 < Elf.userAddrMax then pageFault O k cr2 else none

/-- The files that the calls of a run open have their segments in the user half. -/
def PagedOp.OpensUserFile (O : Outside η) (k : Kernel (Vm × η)) : PagedOp → Prop
  | .call op => op.OpensUserFile O k
  | .fault _ => True

/-- Every frame that the tasks map is in use, and its count is the number of entries that map it.
A page table is a table of one space only, once, and counted once. Nothing else is in use but the
frames of the heap and those reserved at boot. -/
structure ExactRefs (O : Outside η) (reserved : Addr → Prop) (k : Kernel (Vm × η)) : Prop where
  mapped : ∀ x, 0 < treeLeaves k.env.1.mem (taskRoots k.tasks) x → k.env.1.pmm.InUse x ∧
    k.env.1.pmm.count x = treeLeaves k.env.1.mem (taskRoots k.tasks) x
  tables : ∀ x, 0 < treeTables k.env.1.mem (taskRoots k.tasks) x → k.env.1.pmm.InUse x ∧
    k.env.1.pmm.count x = 1 ∧ treeTables k.env.1.mem (taskRoots k.tasks) x = 1 ∧
      treeLeaves k.env.1.mem (taskRoots k.tasks) x = 0
  allocated : ∀ x, k.env.1.pmm.InUse x → 0 < treeTables k.env.1.mem (taskRoots k.tasks) x ∨
    0 < treeLeaves k.env.1.mem (taskRoots k.tasks) x ∨ O.heap k.env.2 x ∨ reserved x

section Runs

variable {O : Outside η} {reserved : Addr → Prop} {k k' : Kernel (Vm × η)}

theorem Consistent.steady (h : Consistent O reserved k) (hboot : AfterBoot k) :
    Steady O reserved k := by
  refine ⟨⟨?_, h.apart, fun r hr => ?_⟩, fun p hp hne => ?_, ?_, ?_⟩
  · rw [rootsOf_spaces]
    exact h.forest
  · obtain ⟨-, rfl⟩ := space_eq_some hr
    exact ⟨h.idleFrame, h.idleTables⟩
  · cases hboot.current.symm.trans hp
    exact absurd rfl hne
  · rw [show k.spaces idle = _ from space_used (by rw [hboot.idle_running]; decide)]
    exact some_ne_none _
  · rw [hboot.idle_running]
    decide

theorem Steady.exactRefs (h : Steady O reserved k) : ExactRefs O reserved k := by
  have hforest := h.framed.forest
  rw [rootsOf_spaces] at hforest
  constructor
  · intro x hx
    obtain ⟨hm, hu, -, hcount⟩ := hforest.accounts.owned x (by omega)
    have hsingle := hforest.accounts.single x
    rw [count_zero, Nat.zero_add] at hcount hsingle
    exact ⟨⟨hm, hu⟩, by omega⟩
  · intro x hx
    obtain ⟨hm, hu, -, hcount⟩ := hforest.accounts.owned x (by omega)
    have hsingle := hforest.accounts.single x (by omega)
    rw [count_zero, Nat.zero_add] at hcount hsingle
    exact ⟨⟨hm, hu⟩, by omega, by omega, by omega⟩
  · intro x hx
    rcases hforest.accounts.covered x hx.1 hx.2 with hin | hin
    · rw [count_zero] at hin
      omega
    · exact .inr (.inr hin)

/-- A frame that is in use besides the bare PML4 of the only task. -/
theorem not_exactRefs_of_stray {r x : Addr} (hroots : taskRoots k.tasks = {r}) (hr : IsFrame r)
    (hbare : Bare k.env.1.mem r) (hx : k.env.1.pmm.InUse x) (hne : r ≠ x)
    (hheap : ¬ O.heap k.env.2 x) (hreserved : ¬ reserved x) : ¬ ExactRefs O reserved k := by
  intro hexact
  have hin := hexact.allocated x hx
  rw [hroots, treeTables_singleton, Radix.tableCount, weight_bare hr hbare, treeLeaves_singleton,
    rootLeaves_bare hr hbare, if_neg hne] at hin
  simp [hheap, hreserved] at hin

/-- The page of a user address is in the user half. -/
theorem tableIndex_page_lt {cr2 : Addr} (h : cr2 < Elf.userAddrMax) :
    (tableIndex (cr2 &&& ~~~0xFFF) 39).val < 256 := by
  apply Elf.tableIndex_lt
  rw [BitVec.lt_def] at h ⊢
  rw [BitVec.toNat_and]
  exact Nat.lt_of_le_of_lt Nat.and_le_left h

variable (hO : O.Ok)

include hO

theorem Steady.pageFault (h : Steady O reserved k) {p : Pid} (hc : Calling k p) {cr2 : Addr}
    (hcr2 : cr2 < Elf.userAddrMax) (hrun : pageFault O k cr2 = some k') : Steady O reserved k' := by
  have hactive := h.active p hc.current hc.not_idle
  unfold Process.pageFault at hrun
  rcases hcow : vmmHandleCowFault k.cr3 (cr2 &&& ~~~0xFFF) k.env.1 with ⟨ok, vm⟩
  have hframed := h.framed.fault hc.not_idle hactive (tableIndex_page_lt hcr2) hcow
  have h1 : Steady O reserved { k with env := (vm, k.env.2) } :=
    ⟨hframed, h.active, h.idle_used, h.idle_lives⟩
  rw [hcow] at hrun
  cases ok with
  | true =>
    obtain rfl := some.inj hrun
    exact h1
  | false =>
    have hexit : Process.syscall (vmServices O) { k with env := (vm, k.env.2) }
      (.exit _) = some k' := hrun
    refine h1.syscall hO ⟨hc.current, hc.not_idle, hc.running⟩ ?_ ?_ hexit
    · trivial
    · trivial

theorem Steady.pagedStep (h : Steady O reserved k) {op : PagedOp} (hfile : op.OpensUserFile O k)
    (hrun : pagedStep O k op = some k') : Steady O reserved k' := by
  cases op with
  | call op =>
    have hs : (if op.Checked then Process.step (vmServices O) k op else none) = some k' := hrun
    split_ifs at hs with hchecked
    exact h.step hO hchecked hfile hs
  | fault cr2 =>
    have hs : (if k.caller.isSome ∧ cr2 < Elf.userAddrMax then Process.pageFault O k cr2 else none) =
      some k' := hrun
    split_ifs at hs with hcaller
    obtain ⟨p, hc⟩ := calling_of_caller hcaller.1
    exact h.pageFault hO hc hcaller.2 hs

omit hO in
theorem rootsOf_empty {spaces : Pid → Option Addr} (h : ∀ i, i ≠ idle → spaces i = none) :
    rootsOf spaces = 0 := by
  refine eq_zero_of_forall_notMem fun r hr => ?_
  obtain ⟨i, -, hi⟩ := (mem_filterMap _ _).mp hr
  by_cases hidle : i = idle
  · rw [if_pos hidle] at hi
    cases hi
  · rw [if_neg hidle, h i hidle] at hi
    cases hi

section Boot

variable (hfree : ∀ i, (k.tasks i).state = .unused)
  (hforest : Forest k.env.1 0 0 (fun _ => 0) fun x => O.heap k.env.2 x ∨ reserved x)
  (hapart : ∀ x, O.heap k.env.2 x → ¬reserved x) (hframe : IsFrame k.cr3)
  (htables : ∀ x n, Radix.Below shape k.env.1.mem 4 (rootWord k.cr3) x n → reserved x)

include hfree hforest hapart hframe htables

/-- The idle task takes the page table of the boot code. -/
theorem steady_taskCreateCurrent {name : List UInt8}
    (hidle : (taskCreateCurrent (vmServices O) k name).1 = true) :
    Steady O reserved (taskCreateCurrent (vmServices O) k name).2 ∧
      (taskCreateCurrent (vmServices O) k name).2.currentTask = some idle := by
  have hmoves := hO.kmalloc taskStackSize k.env ⟨0, 0, _, reserved, hforest, hapart⟩
  obtain ⟨stack, e, t, hmalloc, -, -, heq⟩ := taskCreateCurrent_eq (vmServices O) hidle
  rw [show O.kmalloc taskStackSize k.env = _ from hmalloc] at hmoves
  rw [heq]
  generalize hk1 : setCurrent _ idle = k1
  have hspaces : k1.spaces = update k.spaces idle (some k.cr3) := by
    rw [← hk1]
    funext i
    by_cases hi : i = idle
    · subst hi
      simp [spaces, setCurrent, Task.space, idleTask]
    · simp [spaces, setCurrent, hi]
  have hother (i : Pid) (hi : i ≠ idle) : k1.spaces i = none := by
    rw [hspaces, update_of_ne hi]
    exact space_unused (hfree i)
  have hroots := rootsOf_empty hother
  have hself : k1.spaces idle = some k.cr3 := by
    rw [hspaces, update_self]
  have hstart : Framed O reserved k1.spaces k.env := by
    refine ⟨?_, hapart, fun r hr => ?_⟩
    · rw [hroots]
      exact hforest
    · cases hself.symm.trans hr
      exact ⟨hframe, htables⟩
  have hcurrent : k1.currentTask = some idle := by
    rw [← hk1]
    rfl
  refine ⟨⟨?_, fun p hp hne => ?_, ?_, ?_⟩, hcurrent⟩
  · have henv : k1.env = e := by
      rw [← hk1]
      rfl
    rw [henv]
    exact hstart.heapMoves hmoves.heap
  · cases hcurrent.symm.trans hp
    exact absurd rfl hne
  · rw [hself]
    exact some_ne_none k.cr3
  · rw [← hk1]
    simp [setCurrent, idleTask]

/-- Boot from memory with no space in it, on page tables that are reserved. -/
theorem steady_boot {entry : Nat}
    (hidle : (taskCreateCurrent (vmServices O) k [105, 100, 108, 101]).1 = true) :
    Steady O reserved (boot (vmServices O) k entry).2 := by
  obtain ⟨h, hcurrent⟩ := steady_taskCreateCurrent hO hfree hforest hapart hframe htables hidle
  have hne := hcurrent.trans_ne (some_ne_none idle)
  exact h.taskCreateArgs hO hne [105, 110, 105, 116] entry 0

end Boot

theorem Steady.run {k₀ : Kernel (Vm × η)} {ops : List PagedOp} (h : Steady O reserved k₀)
    (hfiles : Along (Process.pagedStep O) (PagedOp.OpensUserFile O) k₀ ops)
    (hrun : Run.run (Process.pagedStep O) k₀ ops = some k) : ExactRefs O reserved k :=
  (run_invariant_along (Process.pagedStep O)
    (fun _ _ _ hs hfile hstep => hs.pagedStep hO hfile hstep) h hfiles hrun).exactRefs

/-- In every state that is reached after boot the reference counts of frames are exact. Boot
starts from memory with no space in it, on page tables that are reserved. -/
theorem frame_refs_exact (reserved : Addr → Prop) (ops : List PagedOp) (k : Kernel (Vm × η)) :
    (∀ k₀, AfterBoot k₀ → Consistent O reserved k₀ →
      Along (pagedStep O) (PagedOp.OpensUserFile O) k₀ ops → run (pagedStep O) k₀ ops = some k →
        ExactRefs O reserved k) ∧
    ∀ (kz : Kernel (Vm × η)) entry, (∀ i, (kz.tasks i).state = .unused) →
      Forest kz.env.1 0 0 (fun _ => 0) (fun x => O.heap kz.env.2 x ∨ reserved x) →
      (∀ x, O.heap kz.env.2 x → ¬reserved x) → IsFrame kz.cr3 →
      (∀ x n, Radix.Below shape kz.env.1.mem 4 (rootWord kz.cr3) x n → reserved x) →
      (taskCreateCurrent (vmServices O) kz [105, 100, 108, 101]).1 = true →
      Along (pagedStep O) (PagedOp.OpensUserFile O) (boot (vmServices O) kz entry).2 ops →
      run (pagedStep O) (boot (vmServices O) kz entry).2 ops = some k → ExactRefs O reserved k := by
  constructor
  · intro k₀ hboot hmem hfiles hrun
    exact (hmem.steady hboot).run hO hfiles hrun
  · intro kz entry hfree hforest hapart hframe htables hidle hfiles hrun
    exact (steady_boot hO hfree hforest hapart hframe htables hidle).run hO hfiles hrun

end Runs

/-! ## A page table that is lost -/

/-- An exec of the file that wraps is refused, and the counts are not exact after it. -/
theorem pagedStep_exec_wrapFile {k : Kernel (Vm × Unit)} (hcaller : k.caller.isSome)
    (henv : k.env = (lowVm, ())) (hcr3 : k.cr3 = 0x100000)
    (hroots : taskRoots k.tasks = {0x100000}) :
    ∃ k', pagedStep (oneFile wrapFile) k (.call (.exec [47] [])) = some k' ∧
      ¬ ExactRefs (oneFile wrapFile) lowReserved k' := by
  have hargs : Op.Checked (.exec [47] []) := by decide
  have hreserved : ¬ lowReserved 0x107000 := by
    rintro ⟨i, hi, h8, heq⟩
    have hindex : lowVm.pmm.index 0x107000 = 7 := by decide
    rw [heq, Pmm.index_address hi] at hindex
    omega
  have hexec := doExec_wrapFile [47] [] henv hcr3
  obtain ⟨hused, hbare⟩ := lostVm_spec
  generalize lostVm = vm at *
  refine ⟨{ k with env := (vm, ()) }, ?_, ?_⟩
  · simp only [pagedStep, if_pos hargs, step, if_pos hcaller, syscall, hexec]
  · exact not_exactRefs_of_stray hroots (by decide) hbare hused (by decide) id hreserved

/-- A free slot, and the tasks that boot leaves: the idle task runs, and init is ready. -/
def lowTask (i : Pid) : Task :=
  let free := { Task.zeroed with parentPid := none, firstChild := none, nextSibling := none }
  if i = init then { free with state := .ready, parentPid := some idle, cr3 := 0x100000 }
  else if i = idle then { free with state := .running, cr3 := 0x108000 }
  else free

def lowBoot : Kernel (Vm × Unit) :=
  { Kernel.zeroed (lowVm, ()) with tasks := lowTask, currentTask := some idle, cr3 := 0x108000 }

theorem afterBoot_lowBoot : AfterBoot lowBoot := by
  refine ⟨rfl, by decide, by decide, by decide, by decide, by decide⟩

theorem taskRoots_low {σ : Type} {k : Kernel σ}
    (hused : (Finset.univ.filter fun i => i ≠ idle ∧ (k.tasks i).state ≠ .unused) = {init})
    (hinit : (k.tasks init).cr3 = 0x100000) : taskRoots k.tasks = {0x100000} := by
  rw [taskRoots, hused]
  show ({(k.tasks init).cr3} : Multiset Addr) = _
  rw [hinit]

theorem consistent_lowBoot (data : List UInt8) : Consistent (oneFile data) lowReserved lowBoot :=
  consistent_low data rfl (taskRoots_low (by decide) (by decide)) (by decide)

/-- Init after it was switched to. -/
def lowInit : Kernel (Vm × Unit) := reschedule (vmServices (oneFile wrapFile)) lowBoot 0

theorem lowInit_env : lowInit.env = (lowVm, ()) := by
  obtain ⟨tasks, -, ⟨next, -, heq⟩ | ⟨-, heq⟩⟩ :=
    doSchedule_cases (vmServices (oneFile wrapFile)) { lowBoot with savedRsp := 0 }
  · rw [lowInit, reschedule, heq, switchTo_env]
    show (freePendingKstack (vmServices (oneFile wrapFile)) _ idle).env = _
    rw [freePendingKstack]
    split <;> rfl
  · rw [lowInit, reschedule, heq]
    rfl

/-- Init forks, kills its child and reaps it. -/
theorem frame_refs_exact_reaped : ∃ k, run (pagedStep (oneFile wrapFile)) lowBoot
      [.call (.reschedule 0), .call (.fork 0), .call (.kill 2), .call (.wait (-1) 0)] = some k ∧
    ExactRefs (oneFile wrapFile) lowReserved k := by
  have hsome : (run (pagedStep (oneFile wrapFile)) lowBoot
      [.call (.reschedule 0), .call (.fork 0), .call (.kill 2), .call (.wait (-1) 0)]).isSome := by
    decide +kernel
  obtain ⟨k, hrun⟩ := isSome_iff_exists.mp hsome
  refine ⟨k, hrun, (frame_refs_exact (oneFile_ok wrapFile) lowReserved _ k).1 lowBoot
    afterBoot_lowBoot (consistent_lowBoot wrapFile) ?_ hrun⟩
  exact ⟨trivial, fun _ _ => ⟨trivial, fun _ _ => ⟨trivial, fun _ _ => ⟨trivial, fun _ _ => trivial⟩⟩⟩⟩

/-- Init executes a file whose segment wraps. The exec is refused, and a page table stays in use
that no space has. -/
theorem exec_loses_frame : AfterBoot lowBoot ∧ Consistent (oneFile wrapFile) lowReserved lowBoot ∧
    ∃ k, run (pagedStep (oneFile wrapFile)) lowBoot
        [.call (.reschedule 0), .call (.exec [47] [])] = some k ∧
      ¬ ExactRefs (oneFile wrapFile) lowReserved k := by
  obtain ⟨k, hexec, hlost⟩ := pagedStep_exec_wrapFile (k := lowInit) (by decide +kernel) lowInit_env
    (by decide +kernel) (taskRoots_low (by decide +kernel) (by decide +kernel))
  have hfirst : pagedStep (oneFile wrapFile) lowBoot (.call (.reschedule 0)) = some lowInit := rfl
  refine ⟨afterBoot_lowBoot, consistent_lowBoot wrapFile, k, ?_, hlost⟩
  rw [run_cons, hfirst, bind_some, run_cons, hexec]
  rfl

end Crius.Process
