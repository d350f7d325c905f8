import Crius.Process.System

/-!
# Memory steps

Most of the process code only moves memory around: it calls the heap, the page-table code
and the loader, and changes the fields of a task that say where its stacks and its image
are. `MemStep` is what such code can do; it never touches the scheduling fields or the
descriptors.
-/
namespace Crius.Process

variable {σ α : Type} {S : Services σ}

/-- The service states that calls of the page allocator, of the page-table code and of the
loader reach. -/
inductive PageCalls (S : Services σ) (e : σ) : σ → Prop
  | refl : PageCalls S e e
  | pmmAllocPage {e' : σ} : PageCalls S e e' → PageCalls S e (S.pmmAllocPage e').2
  | pmmFreePage {e' : σ} (phys : BitVec 64) : PageCalls S e e' →
      PageCalls S e (S.pmmFreePage phys e')
  | vmmCreatePml4 {e' : σ} : PageCalls S e e' → PageCalls S e (S.vmmCreatePml4 e').2
  | vmmMapKernel {e' : σ} (active pml4 : BitVec 64) : PageCalls S e e' →
      PageCalls S e (S.vmmMapKernel active pml4 e')
  | vmmMapPage {e' : σ} (pml4 virt phys flags : BitVec 64) : PageCalls S e e' →
      PageCalls S e (S.vmmMapPage pml4 virt phys flags e').2
  | vmmCopyUserspace {e' : σ} (dst src : BitVec 64) : PageCalls S e e' →
      PageCalls S e (S.vmmCopyUserspace dst src e').2
  | vmmFreeUserPages {e' : σ} (pml4 : BitVec 64) : PageCalls S e e' →
      PageCalls S e (S.vmmFreeUserPages pml4 e')
  | vfsStat {e' : σ} (path : List UInt8) : PageCalls S e e' → PageCalls S e (S.vfsStat path e').2
  | vfsRead {e' : σ} (path : List UInt8) (size : Nat) : PageCalls S e e' →
      PageCalls S e (S.vfsRead path size e').2
  | elfLoadToTask {e' : σ} (pml4 : BitVec 64) (data : List UInt8) : PageCalls S e e' →
      PageCalls S e (S.elfLoadToTask pml4 data e').2
  | fillArgPage {e' : σ} (phys : BitVec 64) (argv : List (List UInt8)) : PageCalls S e e' →
      PageCalls S e (S.fillArgPage phys argv e')

theorem PageCalls.trans {e₁ e₂ e₃ : σ} (h : PageCalls S e₁ e₂) (h' : PageCalls S e₂ e₃) :
    PageCalls S e₁ e₃ := by
  induction h' with
  | refl => exact h
  | pmmAllocPage _ ih => exact .pmmAllocPage ih
  | pmmFreePage phys _ ih => exact .pmmFreePage phys ih
  | vmmCreatePml4 _ ih => exact .vmmCreatePml4 ih
  | vmmMapKernel active pml4 _ ih => exact .vmmMapKernel active pml4 ih
  | vmmMapPage pml4 virt phys flags _ ih => exact .vmmMapPage pml4 virt phys flags ih
  | vmmCopyUserspace dst src _ ih => exact .vmmCopyUserspace dst src ih
  | vmmFreeUserPages pml4 _ ih => exact .vmmFreeUserPages pml4 ih
  | vfsStat path _ ih => exact .vfsStat path ih
  | vfsRead path size _ ih => exact .vfsRead path size ih
  | elfLoadToTask pml4 data _ ih => exact .elfLoadToTask pml4 data ih
  | fillArgPage phys argv _ ih => exact .fillArgPage phys argv ih

theorem PageCalls.result {e e' : σ} {x : α × σ} {a : α} (hx : x = (a, e')) (h : PageCalls S e x.2) :
    PageCalls S e e' := by
  rwa [hx] at h

/-- Calls that leave nothing allocated: what `kmalloc` returned in between has been given
back. -/
inductive Balanced (S : Services σ) : σ → σ → Prop
  | page {e e' : σ} (h : PageCalls S e e') : Balanced S e e'
  | failed {e e' : σ} {size : Nat} (h : S.kmalloc size e = (0, e')) : Balanced S e e'
  | bracket {e e₁ e₂ : σ} {size a : Nat} (h : S.kmalloc size e = (a, e₁)) (ha : a ≠ 0)
      (inner : Balanced S e₁ e₂) : Balanced S e (S.kfree a e₂)
  | trans {e₁ e₂ e₃ : σ} (h : Balanced S e₁ e₂) (h' : Balanced S e₂ e₃) : Balanced S e₁ e₃

/-- The service states that calls of the heap, of the page services and of the loader
reach. -/
inductive MemCalls (S : Services σ) (e : σ) : σ → Prop
  | refl : MemCalls S e e
  | kmalloc {e' : σ} (size : Nat) : MemCalls S e e' → MemCalls S e (S.kmalloc size e').2
  | kfree {e' : σ} (ptr : Nat) : MemCalls S e e' → MemCalls S e (S.kfree ptr e')
  | page {e' e'' : σ} : MemCalls S e e' → PageCalls S e' e'' → MemCalls S e e''

namespace MemCalls

variable {S : Services σ} {e₁ e₂ e₃ : σ}

theorem trans (h : MemCalls S e₁ e₂) (h' : MemCalls S e₂ e₃) : MemCalls S e₁ e₃ := by
  induction h' with
  | refl => exact h
  | kmalloc size _ ih => exact .kmalloc size ih
  | kfree ptr _ ih => exact .kfree ptr ih
  | page _ hp ih => exact .page ih hp

theorem allocated {size a : Nat} (h : S.kmalloc size e₁ = (a, e₂)) : MemCalls S e₁ e₂ := by
  have hcall : MemCalls S e₁ (S.kmalloc size e₁).2 := .kmalloc size .refl
  rwa [h] at hcall

theorem of_balanced (h : Balanced S e₁ e₂) : MemCalls S e₁ e₂ := by
  induction h with
  | page h => exact .page .refl h
  | failed h => exact allocated h
  | bracket h _ _ ih => exact .kfree _ ((allocated h).trans ih)
  | trans _ _ ih ih' => exact ih.trans ih'

end MemCalls

/-- A task without the fields that say where its stacks and its image are. -/
def Task.core (t : Task) : Task :=
  { t with
    rsp := 0
    rip := 0
    stack := 0
    kernelStack := 0
    userRsp := 0
    name := []
    cr3 := 0
    pendingFreeKstack := 0 }

/-- The kernel with one task and the service state replaced. -/
def Kernel.put (k : Kernel σ) (i : Pid) (t : Task) (e : σ) : Kernel σ :=
  (k.setTasks (Function.update k.tasks i t)).call fun _ => e

@[simp] theorem Kernel.put_tasks (k : Kernel σ) (i : Pid) (t : Task) (e : σ) :
    (k.put i t e).tasks = Function.update k.tasks i t := rfl

theorem taskCreateCurrent_eq (S : Services σ) {k : Kernel σ} {name : List UInt8}
    (h : (taskCreateCurrent S k name).1 = true) : ∃ stack e t,
      S.kmalloc taskStackSize k.env = (stack, e) ∧ stack ≠ 0 ∧ t.stack = stack ∧
        (taskCreateCurrent S k name).2 = (k.put idle (idleTask k.cr3 t) e).setCurrent idle := by
  rcases hcall : S.kmalloc taskStackSize k.env with ⟨stack, e⟩
  unfold taskCreateCurrent at h ⊢
  simp only [Kernel.ask, Kernel.modify_env, hcall] at h ⊢
  split_ifs at h ⊢ with hstack
  refine ⟨stack, e, { k.tasks idle with name := copyName taskNameLen name, stack := stack }, rfl,
    hstack, rfl, ?_⟩
  simp [Kernel.put, Kernel.modify, Kernel.call, Kernel.setTasks, hcall]

structure MemStep (S : Services σ) (k k' : Kernel σ) : Prop where
  core : ∀ i, (k'.tasks i).core = (k.tasks i).core
  currentTask : k'.currentTask = k.currentTask
  needReschedule : k'.needReschedule = k.needReschedule
  env : MemCalls S k.env k'.env

namespace MemStep

variable {S : Services σ} (k : Kernel σ)

theorem refl : MemStep S k k := ⟨fun _ => rfl, rfl, rfl, .refl⟩

theorem trans {k1 k2 k3 : Kernel σ} (h : MemStep S k1 k2) (h' : MemStep S k2 k3) :
    MemStep S k1 k3 :=
  ⟨fun i => (h'.core i).trans (h.core i), h'.currentTask.trans h.currentTask,
    h'.needReschedule.trans h.needReschedule, h.env.trans h'.env⟩

theorem call {f : σ → σ} (h : ∀ e, MemCalls S e (f e)) : MemStep S k (k.call f) :=
  ⟨fun _ => rfl, rfl, rfl, h k.env⟩

theorem modify {k : Kernel σ} {i : Pid} {f : Task → Task}
    (h : (f (k.tasks i)).core = (k.tasks i).core) : MemStep S k (k.modify i f) := by
  refine ⟨fun j => ?_, rfl, rfl, .refl⟩
  by_cases hj : j = i
  · subst hj
    simpa using h
  · simp [hj]

theorem put {k : Kernel σ} {i : Pid} {t : Task} {e : σ} (h : t.core = (k.tasks i).core)
    (he : MemCalls S k.env e) : MemStep S k (k.put i t e) := by
  refine ⟨fun j => ?_, rfl, rfl, he⟩
  by_cases hj : j = i
  · subst hj
    simpa using h
  · simp [hj]

theorem vmmSwitchPml4 (pml4 : BitVec 64) : MemStep S k (k.vmmSwitchPml4 pml4) :=
  ⟨fun _ => rfl, rfl, rfl, .refl⟩

theorem tssSetRsp0 (rsp0 : Nat) : MemStep S k (k.tssSetRsp0 rsp0) :=
  ⟨fun _ => rfl, rfl, rfl, .refl⟩

theorem links_core (t : Task) : t.core.links = t.links := rfl

theorem sameSched {k k' : Kernel σ} (h : MemStep S k k') : SameSched k k' := by
  refine ⟨funext fun i => ?_, h.currentTask, h.needReschedule⟩
  show (k'.tasks i).links = (k.tasks i).links
  rw [← links_core, h.core, links_core]

end MemStep

section Memory

variable (S : Services σ) (k : Kernel σ) (i : Pid)

theorem pageCalls_mapUserStack (cr3 : BitVec 64) (l : List Nat) (e : σ) :
    PageCalls S e (mapUserStack S cr3 l e).2 := by
  induction l generalizing e with
  | nil => exact .refl
  | cons p l ih =>
    unfold mapUserStack
    split
    next phys e₁ hpage =>
    have h1 : PageCalls S e e₁ := .result hpage (.pmmAllocPage .refl)
    split
    · exact h1
    · split
      next ok e₂ hmap =>
      have h2 : PageCalls S e e₂ := .result hmap (.vmmMapPage _ _ _ _ h1)
      split
      · exact h2.trans (ih e₂)
      · exact .pmmFreePage _ h2

theorem pageCalls_discardSpace (cr3 : BitVec 64) (e : σ) :
    PageCalls S e (discardSpace S cr3 e) := .pmmFreePage _ (.vmmFreeUserPages _ .refl)

/-- The outcome of acquiring memory for a slot: only storage fields of the slot change, and
the heap holds one more stack exactly when it succeeds. -/
structure Acquired (k : Kernel σ) (slot : Pid) (ok : Bool) (k' : Kernel σ) : Prop where
  store : ∃ t e, k' = k.put slot t e ∧ t.core = (k.tasks slot).core ∧
    t.pendingFreeKstack = (k.tasks slot).pendingFreeKstack
  calls : (ok = false ∧ Balanced S k.env k'.env) ∨
    (ok = true ∧ (k'.tasks slot).stack ≠ 0 ∧ (k'.tasks slot).kernelStack = (k'.tasks slot).stack ∧
      ∃ e₁, S.kmalloc taskStackSize k.env = ((k'.tasks slot).stack, e₁) ∧ PageCalls S e₁ k'.env)

/-- The calls of `acquireSpace`, as far as they get. -/
theorem acquireSpace_cases (fill : BitVec 64 → σ → Bool × σ) (k : Kernel σ) (slot : Pid) :
    ∃ ok t e, acquireSpace S fill k slot = (ok, k.put slot t e) ∧ t.core = (k.tasks slot).core ∧
      t.pendingFreeKstack = (k.tasks slot).pendingFreeKstack ∧
      ∃ stack e₁, S.kmalloc taskStackSize k.env = (stack, e₁) ∧
        (ok = false ∧ stack = 0 ∧ e = e₁ ∨ stack ≠ 0 ∧
          ∃ cr3 e₂, S.vmmCreatePml4 e₁ = (cr3, e₂) ∧
            (ok = false ∧ cr3 = 0 ∧ e = S.kfree stack e₂ ∨ cr3 ≠ 0 ∧
              ∃ e₃, fill cr3 (S.vmmMapKernel k.cr3 cr3 e₂) = (ok, e₃) ∧
                (ok = false ∧ e = S.kfree stack (discardSpace S cr3 e₃) ∨
                  ok = true ∧ e = e₃ ∧ t.stack = stack ∧ t.kernelStack = stack ∧ t.cr3 = cr3))) := by
  unfold acquireSpace
  rcases hstack : S.kmalloc taskStackSize k.env with ⟨stack, e₁⟩
  simp only [Kernel.ask, hstack]
  by_cases h0 : stack = 0
  · refine ⟨false, { k.tasks slot with stack := 0 }, e₁, ?_, rfl, rfl, stack, e₁, rfl,
      .inl ⟨rfl, h0, rfl⟩⟩
    simp [Kernel.put, Kernel.modify, Kernel.call, Kernel.setTasks, hstack, h0]
  rw [if_neg h0]
  rcases hcr3 : S.vmmCreatePml4 e₁ with ⟨cr3, e₂⟩
  simp only [Kernel.modify_env, Kernel.call_env, hstack, hcr3]
  by_cases h1 : cr3 = 0
  · rw [if_pos h1]
    refine ⟨false, { k.tasks slot with stack := 0, kernelStack := 0, cr3 := 0 }, _, ?_, rfl, rfl,
      stack, e₁, rfl, .inr ⟨h0, cr3, e₂, hcr3, .inl ⟨rfl, h1, rfl⟩⟩⟩
    simp [Kernel.put, Kernel.modify, Kernel.call, Kernel.setTasks, hstack, hcr3, h1]
  rw [if_neg h1]
  rcases hf : fill cr3 (S.vmmMapKernel k.cr3 cr3 e₂) with ⟨ok, e₃⟩
  simp only [Kernel.modify_cr3, Kernel.call_cr3, hf]
  cases ok with
  | true =>
    refine ⟨true, { k.tasks slot with stack := stack, kernelStack := stack, cr3 := cr3 }, _, ?_, rfl,
      rfl, stack, e₁, rfl, .inr ⟨h0, cr3, e₂, hcr3, .inr ⟨h1, e₃, hf, .inr ⟨rfl, rfl, rfl, rfl, rfl⟩⟩⟩⟩
    simp [Kernel.put, Kernel.modify, Kernel.call, Kernel.setTasks, hstack, hcr3, hf]
  | false =>
    refine ⟨false, { k.tasks slot with stack := 0, kernelStack := 0, cr3 := 0 }, _, ?_, rfl, rfl,
      stack, e₁, rfl, .inr ⟨h0, cr3, e₂, hcr3, .inr ⟨h1, e₃, hf, .inl ⟨rfl, rfl⟩⟩⟩⟩
    simp [Kernel.put, Kernel.modify, Kernel.call, Kernel.setTasks, hstack, hcr3, hf, discardSpace]

theorem acquireSpace_acquired {fill : BitVec 64 → σ → Bool × σ}
    (hfill : ∀ cr3 e, PageCalls S e (fill cr3 e).2) (k : Kernel σ) (slot : Pid)
    (name : List UInt8) :
    ∃ ok k', acquireSpace S fill (k.modify slot fun t => { t with name := name }) slot = (ok, k') ∧
      Acquired S k slot ok k' := by
  obtain ⟨ok, t, e, hrun, hcore, hpending, stack, e₁, hstack, hcalls⟩ :=
    acquireSpace_cases S fill (k.modify slot fun t => { t with name := name }) slot
  rw [Kernel.modify_tasks, if_pos rfl] at hcore hpending
  refine ⟨ok, k.put slot t e, ?_, ⟨t, e, rfl, hcore, hpending⟩, ?_⟩
  · rw [hrun]
    simp [Kernel.put, Kernel.modify, Kernel.call, Kernel.setTasks]
  rcases hcalls with ⟨rfl, rfl, rfl⟩ | ⟨h0, cr3, e₂, hcr3, hcalls⟩
  · exact .inl ⟨rfl, .failed hstack⟩
  have h2 : PageCalls S e₁ e₂ := .result hcr3 (.vmmCreatePml4 .refl)
  rcases hcalls with ⟨rfl, -, rfl⟩ | ⟨-, e₃, hf, hcalls⟩
  · exact .inl ⟨rfl, .bracket hstack h0 (.page h2)⟩
  have h3 : PageCalls S e₁ e₃ := (PageCalls.vmmMapKernel _ _ h2).trans (.result hf (hfill _ _))
  rcases hcalls with ⟨rfl, rfl⟩ | ⟨rfl, rfl, rfl, hsame, -⟩
  · exact .inl ⟨rfl, .bracket hstack h0 (.page (h3.trans (pageCalls_discardSpace S cr3 e₃)))⟩
  · exact .inr ⟨rfl, by simpa using ⟨h0, hsame, e₁, hstack, h3⟩⟩

theorem Acquired.memStep {k k' : Kernel σ} {slot : Pid} {ok : Bool}
    (h : Acquired S k slot ok k') : MemStep S k k' := by
  obtain ⟨t, e, rfl, hcore, -⟩ := h.store
  refine .put hcore ?_
  rcases h.calls with ⟨-, hb⟩ | ⟨-, -, -, e₁, hstack, hpage⟩
  · exact .of_balanced hb
  · exact .page (.allocated hstack) hpage

theorem memStep_freePendingKstack : MemStep S k (freePendingKstack S k i) := by
  unfold freePendingKstack
  split
  · exact .refl k
  · exact (MemStep.call k fun _ => .kfree _ .refl).trans (.modify rfl)

theorem memStep_cleanupAddressSpace : MemStep S k (cleanupAddressSpace S k i) := by
  unfold cleanupAddressSpace
  split
  · exact .refl k
  · simp only
    split
    · exact .modify rfl
    · exact (MemStep.call k fun e => .page .refl (pageCalls_discardSpace S _ e)).trans (.modify rfl)

theorem memStep_freeKernelStack : MemStep S k (freeKernelStack S k i) := by
  unfold freeKernelStack
  split
  · exact .refl k
  · exact (MemStep.call k fun _ => .kfree _ .refl).trans (.modify rfl)

theorem memStep_freeStack : MemStep S k (freeStack S k i) := by
  unfold freeStack
  refine MemStep.trans ?_ (.modify rfl)
  split
  · exact .call k fun _ => .kfree _ .refl
  · exact .refl k

/-- `task_cleanup` before it releases the descriptors. -/
def cleanupMemory (k : Kernel σ) (i : Pid) : Kernel σ :=
  freePendingKstack S (freeStack S (freeKernelStack S (cleanupAddressSpace S k i) i) i) i

theorem taskCleanup_eq : taskCleanup S k i = taskReleaseFds S (cleanupMemory S k i) i := rfl

theorem memStep_cleanupMemory : MemStep S k (cleanupMemory S k i) :=
  (((memStep_cleanupAddressSpace S k i).trans (memStep_freeKernelStack S _ i)).trans
    (memStep_freeStack S _ i)).trans (memStep_freePendingKstack S _ i)

/-- Steps 1 and 2 of `do_exec` hold the buffer exactly when they succeed. -/
theorem readImage_calls (path : List UInt8) (e : σ) :
    ((readImage S path e).1 = none ∧ Balanced S e (readImage S path e).2) ∨
    ∃ buf data size e₁ e₂, (readImage S path e).1 = some (buf, data) ∧ PageCalls S e e₁ ∧
      S.kmalloc size e₁ = (buf, e₂) ∧ buf ≠ 0 ∧ PageCalls S e₂ (readImage S path e).2 := by
  unfold readImage
  split
  · next e₁ hstat => exact .inl ⟨rfl, .page (.result hstat (.vfsStat _ .refl))⟩
  next elfSize e₁ hstat =>
  have h1 : PageCalls S e e₁ := .result hstat (.vfsStat _ .refl)
  split
  · exact .inl ⟨rfl, .page h1⟩
  split
  next elfBuf e₂ hbuf =>
  split
  · next h0 =>
    subst h0
    exact .inl ⟨rfl, .trans (.page h1) (.failed hbuf)⟩
  next h0 =>
  split
  · next data e₃ hread =>
    have h3 : PageCalls S e₂ e₃ := .result hread (.vfsRead _ _ .refl)
    split
    · exact .inr ⟨elfBuf, data, elfSize, e₁, e₂, rfl, h1, hbuf, h0, h3⟩
    · exact .inl ⟨rfl, .trans (.page h1) (.bracket hbuf h0 (.page h3))⟩
  · next e₃ hread =>
    have h3 : PageCalls S e₂ e₃ := .result hread (.vfsRead _ _ .refl)
    exact .inl ⟨rfl, .trans (.page h1) (.bracket hbuf h0 (.page h3))⟩

theorem pageCalls_mapArgPage (cr3 : BitVec 64) (argv : List (List UInt8)) (e : σ) :
    PageCalls S e (mapArgPage S cr3 argv e).2 := by
  unfold mapArgPage
  split
  next argPhys e₁ hpage =>
  have h1 : PageCalls S e e₁ := .result hpage (.pmmAllocPage .refl)
  split
  · exact h1
  · split
    next ok e₂ hmap =>
    have h2 : PageCalls S e e₂ := .result hmap (.vmmMapPage _ _ _ _ (.fillArgPage _ _ h1))
    split
    · exact h2
    · exact .pmmFreePage _ h2

/-- Steps 3 to 5 give the buffer back once, whatever their result. -/
theorem buildSpace_calls (active : BitVec 64) (elfBuf : Nat) (data : List UInt8)
    (argv : List (List UInt8)) (e : σ) : ∃ e₁, PageCalls S e e₁ ∧
      PageCalls S (S.kfree elfBuf e₁) (buildSpace S active elfBuf data argv e).2 := by
  unfold buildSpace
  split
  next newCr3 e₁ hspace =>
  have h1 : PageCalls S e e₁ := .result hspace (.vmmCreatePml4 .refl)
  split
  · exact ⟨e₁, h1, .refl⟩
  split
  next entry e₂ hload =>
  unfold loadSegments at hload
  rcases helf : S.elfLoadToTask newCr3 data (S.vmmMapKernel active newCr3 e₁) with ⟨entry', e₃⟩
  have h3 : PageCalls S e e₃ := .result helf (.elfLoadToTask _ _ (.vmmMapKernel _ _ h1))
  rw [helf] at hload
  obtain ⟨-, rfl⟩ := Prod.mk.inj hload
  refine ⟨e₃, h3, ?_⟩
  split
  · exact pageCalls_discardSpace S _ _
  split
  next ok e4 harg =>
  have h4 : PageCalls S (S.kfree elfBuf e₃) e4 := .result harg (pageCalls_mapArgPage S _ _ _)
  split
  · exact h4.trans (pageCalls_discardSpace S _ _)
  split
  next ok' e5 hstack =>
  have h5 : PageCalls S (S.kfree elfBuf e₃) e5 :=
    .result hstack (h4.trans (pageCalls_mapUserStack S _ _ _))
  split
  · exact h5.trans (pageCalls_discardSpace S _ _)
  · exact h5

/-- Before the task is touched, exec holds one new stack exactly when it goes on. -/
theorem loadImage_calls (path : List UInt8) (argv : List (List UInt8)) :
    ((loadImage S k path argv).1 = none ∧ Balanced S k.env (loadImage S k path argv).2) ∨
    ∃ cr3 entry stack e₁, (loadImage S k path argv).1 = some (cr3, entry, stack) ∧
      Balanced S k.env e₁ ∧ stack ≠ 0 ∧
      S.kmalloc taskStackSize e₁ = (stack, (loadImage S k path argv).2) := by
  unfold loadImage
  rcases readImage_calls S path k.env with
    ⟨hnone, hb⟩ | ⟨buf, data, size, e₁, e₂, hsome, h1, hbuf, h0, h2⟩
  · rcases hread : readImage S path k.env with ⟨res, e₁⟩
    rw [hread] at hnone hb
    subst hnone
    exact .inl ⟨rfl, hb⟩
  rcases hread : readImage S path k.env with ⟨res, e₃⟩
  rw [hread] at hsome h2
  subst hsome
  dsimp only
  obtain ⟨e4, h4, h5⟩ := buildSpace_calls S k.cr3 buf data argv e₃
  have hall : Balanced S k.env (buildSpace S k.cr3 buf data argv e₃).2 :=
    .trans (.page h1) (.trans (.bracket hbuf h0 (.page (h2.trans h4))) (.page h5))
  rcases hbuild : buildSpace S k.cr3 buf data argv e₃ with ⟨res, e6⟩
  rw [hbuild] at hall
  cases res with
  | none => exact .inl ⟨rfl, hall⟩
  | some r =>
    obtain ⟨newCr3, entry⟩ := r
    rcases hstack : S.kmalloc taskStackSize e6 with ⟨newKstack, e7⟩
    simp only [hstack]
    split
    · exact .inl ⟨rfl, hall.trans (.page (pageCalls_discardSpace S _ _))⟩
    split
    · next hn =>
      subst hn
      exact .inl ⟨rfl, (hall.trans (.failed hstack)).trans (.page (pageCalls_discardSpace S _ _))⟩
    · next hn => exact .inr ⟨newCr3, entry, newKstack, e6, rfl, hall, hn, hstack⟩

theorem memStep_commitImage (pid : Pid) (path : List UInt8)
    (newCr3 : BitVec 64) (entry newKstack : Nat) :
    MemStep S k (commitImage S k pid path newCr3 entry newKstack) := by
  unfold commitImage
  refine MemStep.trans ?_ (.modify rfl)
  refine MemStep.trans ?_ (memStep_freePendingKstack S _ pid)
  refine MemStep.trans ?_ (.tssSetRsp0 _ _)
  refine MemStep.trans ?_ (.call _ fun e => .page .refl (pageCalls_discardSpace S _ e))
  refine MemStep.trans ?_ (.vmmSwitchPml4 _ _)
  apply MemStep.modify
  simp only [Task.core]

theorem memStep_doExec (path : List UInt8) (argv : List (List UInt8)) :
    MemStep S k (doExec S k path argv).2 := by
  have henv (e : σ) (he : MemCalls S k.env e) : MemStep S k { k with env := e } :=
    ⟨fun _ => rfl, rfl, rfl, he⟩
  have hload : MemCalls S k.env (loadImage S k path argv).2 := by
    rcases loadImage_calls S k path argv with ⟨-, hb⟩ | ⟨cr3, entry, stack, e₁, -, hb, -, hstack⟩
    · exact .of_balanced hb
    · exact (MemCalls.of_balanced hb).trans (.allocated hstack)
  unfold doExec
  split
  · next h _ =>
    rw [h] at hload
    exact (henv _ hload).trans (memStep_commitImage S _ _ _ _ _ _)
  · next h _ =>
    rw [h] at hload
    exact henv _ hload

/-- A fork acquires memory for a free slot and then either gives it back or fills the
slot. -/
theorem taskFork_cases (frameRip : Nat) : (taskFork S k frameRip = (none, k)) ∨
    ∃ p c ok k1, k.currentTask = some p ∧ allocTask k.tasks = some c ∧ Acquired S k c ok k1 ∧
      taskFork S k frameRip = if ok then (some c, forkCommit S k1 p c frameRip) else (none, k1) := by
  unfold taskFork
  cases hcur : k.currentTask with
  | none => exact .inl rfl
  | some p =>
    cases hslot : allocTask k.tasks with
    | none => exact .inl rfl
    | some c =>
      obtain ⟨ok, k1, heq, hacq⟩ := acquireSpace_acquired S
        (fun cr3 (e : σ) => PageCalls.vmmCopyUserspace cr3 (k.tasks p).cr3 .refl) k c
        (copyName taskNameLen (k.tasks p).name)
      refine .inr ⟨p, c, ok, k1, rfl, rfl, hacq, ?_⟩
      dsimp only
      rw [heq]

/-- A new task acquires memory for a free slot and then either gives it back or fills the
slot; it runs at once if no task does. -/
theorem taskCreateArgs_cases (name : List UInt8) (entry arg : Nat) :
    (taskCreateArgs S k name entry arg = (none, k)) ∨
    ∃ c ok k1, allocTask k.tasks = some c ∧ Acquired S k c ok k1 ∧
      (ok = false ∧ taskCreateArgs S k name entry arg = (none, k1) ∨
        ok = true ∧ k.currentTask = none ∧ taskCreateArgs S k name entry arg = (some c,
          (k1.modify c fun t => { freshTask none entry arg t with state := .running }).setCurrent c) ∨
        ok = true ∧ k.currentTask ≠ none ∧ taskCreateArgs S k name entry arg =
          (some c, k1.modify c (freshTask k.currentTask entry arg))) := by
  unfold taskCreateArgs
  cases hslot : allocTask k.tasks with
  | none => exact .inl rfl
  | some c =>
    obtain ⟨ok, k1, heq, hacq⟩ := acquireSpace_acquired S
      (fun cr3 => pageCalls_mapUserStack S cr3 (List.range userStackPages)) k c
      (copyName taskNameLen name)
    refine .inr ⟨c, ok, k1, rfl, hacq, ?_⟩
    dsimp only [initTaskStack]
    rw [heq]
    cases ok with
    | false => exact .inl ⟨rfl, rfl⟩
    | true =>
      rw [← hacq.memStep.currentTask]
      by_cases hnone : k1.currentTask = none
      · refine .inr (.inl ⟨rfl, hnone, ?_⟩)
        simp [hnone, Kernel.modify, Kernel.setCurrent]
      · refine .inr (.inr ⟨rfl, hnone, ?_⟩)
        simp [hnone]

end Memory

/-! ## Descriptors -/

section Descriptors

variable (S : Services σ)

theorem sameSched_foldl {f : Kernel σ → α → Kernel σ} (hf : ∀ k a, SameSched k (f k a)) (l : List α)
    (k : Kernel σ) : SameSched k (l.foldl f k) :=
  l.foldlRecOn f (.refl k) fun k1 h1 a _ => h1.trans (hf k1 a)

theorem sameSched_releaseFd (i : Pid) (k : Kernel σ) (fd : Fd) :
    SameSched k (releaseFd S i k fd) := by
  unfold releaseFd
  split
  · exact .refl k
  · exact (SameSched.call k _).trans (.modify rfl)

theorem sameSched_taskReleaseFds (k : Kernel σ) (i : Pid) : SameSched k (taskReleaseFds S k i) :=
  sameSched_foldl (sameSched_releaseFd S i) _ k

theorem sameSched_taskCleanup (k : Kernel σ) (i : Pid) : SameSched k (taskCleanup S k i) := by
  rw [taskCleanup_eq]
  exact (memStep_cleanupMemory S k i).sameSched.trans (sameSched_taskReleaseFds S _ i)

theorem sameSched_shareFd (parent : Task) (slot : Pid) (k : Kernel σ) (fd : Fd) :
    SameSched k (shareFd S parent slot k fd) := by
  unfold shareFd
  split
  · exact .modify rfl
  · exact (SameSched.call k _).trans (.modify rfl)

end Descriptors

end Crius.Process
