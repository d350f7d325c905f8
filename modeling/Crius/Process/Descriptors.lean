import Crius.Fs.FileRefs
import Crius.Process.ProcTree

/-!
# Descriptors

`SYS_OPEN` and `SYS_CLOSE` of `syscall/syscall.c`, the three descriptors that boot opens
for init, and the process system over a file pool. In every state of every run the
reference count of a file object is the number of descriptors that point to it, over all
tasks; and the object is closed once for each time it was opened, in the step that takes
its last descriptor away.
-/
namespace Crius.Process

open Fs Lib.RefCount Lib.Run Function Kernel Option

variable {σ : Type} {tasks : Pid → Task} {k k' : Kernel (Files σ)} {i : Pid}

/-- The first free descriptor from 3 on. -/
def freeFd (t : Task) : Option Fd :=
  (List.finRange maxFds).find? fun fd => 3 ≤ fd.val ∧ t.fds fd = none

/-- `SYS_OPEN` after its path has been validated and resolved. -/
def sysOpen (S : Services σ) (k : Kernel (Files σ)) (flags : Int) (mounts : List (MountOpen σ)) :
    Int × Kernel (Files σ) :=
  match k.currentTask with
  | none => (-1, k)
  | some i =>
    match k.ask (vfsOpen S flags mounts) with
    | (none, k) => (-1, k)
    | (some f, k) =>
      match freeFd (k.tasks i) with
      | some fd => (fd.val, k.modify i fun t => { t with fds := Function.update t.fds fd (some f) })
      | none => (-1, k.call (Files.put S f))

def sysClose (S : Services σ) (k : Kernel (Files σ)) (fd : Int) : Int × Kernel (Files σ) :=
  match k.currentTask with
  | none => (-1, k)
  | some i =>
    if h : 0 ≤ fd ∧ fd < maxFds then
      let fd : Fd := ⟨fd.toNat, toNat_lt h⟩
      match (k.tasks i).fds fd with
      | none => (-1, k)
      | some f => (0, (k.call (Files.put S f)).modify i fun t =>
          { t with fds := Function.update t.fds fd none })
    else (-1, k)

/-- `init_task->fds[fd] = vfs_open(...)` in `kmain`. -/
def bootOpen (S : Services σ) (k : Kernel (Files σ)) (fd : Fd) (flags : Int)
    (mounts : List (MountOpen σ)) : Kernel (Files σ) :=
  let (f, k) := k.ask (vfsOpen S flags mounts)
  k.modify init fun t => { t with fds := Function.update t.fds fd f }

inductive FileOp (σ : Type) where
  | proc (op : Op)
  | open (flags : Int) (mounts : List (MountOpen σ))
  | close (fd : Int)
  | bootOpen (fd : Fd) (flags : Int) (mounts : List (MountOpen σ))

/-- The process system over a file pool. Boot fills descriptors that `init_task_stack`
has just cleared. -/
def fileStep (S : Services σ) (k : Kernel (Files σ)) : FileOp σ → Option (Kernel (Files σ))
  | .proc op => step (withFiles S) k op
  | .open flags mounts => if k.caller.isSome then some (sysOpen S k flags mounts).2 else none
  | .close fd => if k.caller.isSome then some (sysClose S k fd).2 else none
  | .bootOpen fd flags mounts =>
    if (k.tasks init).state ≠ .unused ∧ (k.tasks init).fds fd = none then
      some (bootOpen S k fd flags mounts)
    else none

/-- The pointers to file objects: every descriptor of every task, and the pointer that a
call under way holds. -/
def pointers (tasks : Pid → Task) (held : Option FileId) : Option (Pid × Fd) → Option FileId
  | none => held
  | some (i, fd) => (tasks i).fds fd

/-- The number of descriptors that point to an object. -/
def slotCount (k : Kernel σ) (f : FileId) : Nat :=
  count (fun s : Pid × Fd => (k.tasks s.1).fds s.2) f

theorem count_pointers (k : Kernel σ) (f : FileId) :
    count (pointers k.tasks none) f = slotCount k f :=
  count_option rfl f

/-- Storing a pointer in a descriptor. -/
theorem pointers_update (tasks : Pid → Task) (held v : Option FileId) (i : Pid) (fd : Fd)
    {t : Task} (ht : t.fds = update (tasks i).fds fd v) :
    pointers (update tasks i t) held =
      update (pointers tasks held) (some (i, fd)) v := by
  funext s
  cases s with
  | none => simp [pointers]
  | some s =>
    obtain ⟨j, d⟩ := s
    by_cases hj : j = i
    · subst hj
      by_cases hd : d = fd
      · subst hd
        simp [pointers, ht]
      · simp [pointers, ht, hd]
    · simp [pointers, hj]

theorem pointers_held (tasks : Pid → Task) (held v : Option FileId) :
    update (pointers tasks held) none v = pointers tasks v := by
  funext s
  cases s <;> simp [pointers]

theorem pointers_congr {tasks' : Pid → Task} (h : ∀ i, (tasks' i).fds = (tasks i).fds)
    (held : Option FileId) : pointers tasks' held = pointers tasks held := by
  funext s
  cases s with
  | none => rfl
  | some s => exact congrFun (h s.1) s.2

/-- The invariant: the counts agree with the descriptors, and a free slot has none. -/
structure FileInv (k : Kernel (Files σ)) : Prop where
  counted : Counted (pointers k.tasks none) k.env
  free : ∀ i, (k.tasks i).state = .unused → ∀ fd, (k.tasks i).fds fd = none

/-! ## Steps that leave descriptors and pool alone -/

structure SameFiles (k k' : Kernel (Files σ)) : Prop where
  fds : ∀ i, (k'.tasks i).fds = (k.tasks i).fds
  pool : k'.env.pool = k.env.pool
  log : k'.env.log = k.env.log
  unused : ∀ i, (k'.tasks i).state = .unused → (k.tasks i).state = .unused

namespace SameFiles

theorem refl (k : Kernel (Files σ)) : SameFiles k k := ⟨fun _ => rfl, rfl, rfl, fun _ h => h⟩

theorem trans {k1 k2 k3 : Kernel (Files σ)} (h : SameFiles k1 k2) (h' : SameFiles k2 k3) :
    SameFiles k1 k3 :=
  ⟨fun i => (h'.fds i).trans (h.fds i), h'.pool.trans h.pool, h'.log.trans h.log,
    fun i hi => h.unused i (h'.unused i hi)⟩

variable {k' : Kernel (Files σ)}

theorem counted (h : SameFiles k k') (hc : Counted (pointers k.tasks none) k.env) :
    Counted (pointers k'.tasks none) k'.env := by
  rw [pointers_congr h.fds]
  refine ⟨?_, ?_, ?_⟩
  · intro f hf
    rw [h.pool] at hf ⊢
    exact hc.used f hf
  · intro f hf
    rw [h.pool] at hf
    exact hc.unused f hf
  · intro f
    rw [h.pool, h.log]
    exact hc.ledger f

theorem openings (h : SameFiles k k') (f : FileId) : k'.env.openings f = k.env.openings f := by
  rw [Files.openings, h.log]
  rfl

theorem modify {m : Task → Task} (hfds : (m (k.tasks i)).fds = (k.tasks i).fds)
    (hstate : (m (k.tasks i)).state = .unused → (k.tasks i).state = .unused) :
    SameFiles k (k.modify i m) := by
  refine ⟨fun j => ?_, rfl, rfl, fun j => ?_⟩
  · by_cases hj : j = i
    · subst hj
      simpa using hfds
    · simp [hj]
  · by_cases hj : j = i
    · subst hj
      simpa using hstate
    · simp [hj]

theorem setTasks (hfds : ∀ i, (tasks i).fds = (k.tasks i).fds)
    (hstate : ∀ i, (tasks i).state = .unused → (k.tasks i).state = .unused) :
    SameFiles k (k.setTasks tasks) := ⟨hfds, rfl, rfl, hstate⟩

end SameFiles

theorem pageCalls_withFiles (S : Services σ) {e e' : Files σ}
    (h : PageCalls (withFiles S) e e') : e'.pool = e.pool ∧ e'.log = e.log := by
  induction h with
  | refl => exact ⟨rfl, rfl⟩
  | _ => assumption

/-- The memory services are behind the pool. -/
theorem memCalls_withFiles (S : Services σ) {e e' : Files σ} (h : MemCalls (withFiles S) e e') :
    e'.pool = e.pool ∧ e'.log = e.log := by
  induction h with
  | refl => exact ⟨rfl, rfl⟩
  | kmalloc size _ ih => exact ih
  | kfree ptr _ ih => exact ih
  | page _ hpage ih =>
    obtain ⟨hpool, hlog⟩ := pageCalls_withFiles S hpage
    exact ⟨hpool.trans ih.1, hlog.trans ih.2⟩

theorem MemStep.sameFiles {S : Services σ} (h : MemStep (withFiles S) k k') : SameFiles k k' := by
  obtain ⟨hpool, hlog⟩ := memCalls_withFiles S h.env
  have hfds (t : Task) : t.core.fds = t.fds := rfl
  refine ⟨fun i => ?_, hpool, hlog, fun i hi => ?_⟩
  · rw [← hfds, h.core, hfds]
  · rw [← h.sameSched.state i]
    exact hi

theorem FileInv.of_same (h : FileInv k) (hs : SameFiles k k') : FileInv k' where
  counted := hs.counted h.counted
  free i hi fd := by
    rw [hs.fds]
    exact h.free i (hs.unused i hi) fd

/-! ## Releasing the descriptors of a task -/

section Release

variable (S : Services σ)

theorem releaseFd_counted (i : Pid) (fd : Fd) (h : Counted (pointers k.tasks none) k.env) :
    Counted (pointers (releaseFd (withFiles S) i k fd).tasks none)
      (releaseFd (withFiles S) i k fd).env := by
  unfold releaseFd
  split
  · exact h
  · next f hf =>
    have hput := h.put S (a := some (i, fd)) hf
    rw [← pointers_update k.tasks none none i fd
      (t := { k.tasks i with fds := update (k.tasks i).fds fd none }) rfl] at hput
    exact hput

theorem releaseFd_openings (k : Kernel (Files σ)) (i : Pid) (fd : Fd) (x : FileId) :
    (releaseFd (withFiles S) i k fd).env.openings x = k.env.openings x := by
  unfold releaseFd
  split
  · rfl
  · next f hf => exact openings_put S k.env f x

theorem releaseFd_fds (k : Kernel (Files σ)) (i : Pid) (fd : Fd) (j : Pid) (d : Fd) :
    ((releaseFd (withFiles S) i k fd).tasks j).fds d =
      if j = i ∧ d = fd then none else (k.tasks j).fds d := by
  unfold releaseFd
  split
  · next hf =>
    split
    · next h => rw [h.1, h.2, hf]
    · rfl
  · next f hf =>
    by_cases hj : j = i
    · subst hj
      by_cases hd : d = fd
      · subst hd
        simp
      · simp [hd]
    · simp [hj]

/-- The loop over a list of descriptors. -/
theorem releaseFds_spec (i : Pid) (l : List Fd) (k : Kernel (Files σ))
    (h : Counted (pointers k.tasks none) k.env) :
    Counted (pointers (l.foldl (releaseFd (withFiles S) i) k).tasks none)
        (l.foldl (releaseFd (withFiles S) i) k).env ∧
      (∀ x, (l.foldl (releaseFd (withFiles S) i) k).env.openings x = k.env.openings x) ∧
      ∀ j d, ((l.foldl (releaseFd (withFiles S) i) k).tasks j).fds d =
        if j = i ∧ d ∈ l then none else (k.tasks j).fds d := by
  induction l generalizing k with
  | nil => exact ⟨h, fun _ => rfl, fun j d => by simp⟩
  | cons fd l ih =>
    obtain ⟨hc, hlog, hfds⟩ := ih _ (releaseFd_counted S i fd h)
    refine ⟨hc, fun x => (hlog x).trans (releaseFd_openings S k i fd x), fun j d => ?_⟩
    rw [List.foldl_cons, hfds, releaseFd_fds]
    by_cases hj : j = i
    · by_cases hl : d ∈ l
      · simp [hj, hl]
      · by_cases hd : d = fd
        · simp [hj, hd]
        · simp [hj, hl, hd]
    · simp [hj]

theorem taskReleaseFds_spec (i : Pid) (k : Kernel (Files σ))
    (h : Counted (pointers k.tasks none) k.env) :
    Counted (pointers (taskReleaseFds (withFiles S) k i).tasks none)
        (taskReleaseFds (withFiles S) k i).env ∧
      (∀ x, (taskReleaseFds (withFiles S) k i).env.openings x = k.env.openings x) ∧
      ∀ j d, ((taskReleaseFds (withFiles S) k i).tasks j).fds d =
        if j = i then none else (k.tasks j).fds d := by
  obtain ⟨hc, hlog, hfds⟩ := releaseFds_spec S i (List.finRange maxFds) k h
  refine ⟨hc, hlog, fun j d => ?_⟩
  rw [taskReleaseFds, hfds]
  simp only [List.mem_finRange, and_true]

end Release

/-! ## Sharing descriptors with a child -/

section Share

variable (S : Services σ)

theorem shareFds_spec {pid slot : Pid} (hne : pid ≠ slot) {parent : Task} (l : List Fd)
    (hl : l.Nodup) (k : Kernel (Files σ)) (hparent : (k.tasks pid).fds = parent.fds)
    (hfree : ∀ fd ∈ l, (k.tasks slot).fds fd = none) (h : Counted (pointers k.tasks none) k.env) :
    Counted (pointers (l.foldl (shareFd (withFiles S) parent slot) k).tasks none)
        (l.foldl (shareFd (withFiles S) parent slot) k).env ∧
      (l.foldl (shareFd (withFiles S) parent slot) k).env.log = k.env.log ∧
      ∀ j, j ≠ slot → ((l.foldl (shareFd (withFiles S) parent slot) k).tasks j).fds =
        (k.tasks j).fds := by
  induction l generalizing k with
  | nil => exact ⟨h, rfl, fun _ _ => rfl⟩
  | cons fd l ih =>
    obtain ⟨hfd, hl⟩ := List.nodup_cons.mp hl
    have hslot : (k.tasks slot).fds fd = none := hfree fd List.mem_cons_self
    have hstep : Counted (pointers (shareFd (withFiles S) parent slot k fd).tasks none)
        (shareFd (withFiles S) parent slot k fd).env ∧
        (shareFd (withFiles S) parent slot k fd).env.log = k.env.log := by
      unfold shareFd
      split
      · have hsame : SameFiles k (k.modify slot fun t =>
            { t with fds := update t.fds fd none }) := by
          refine .modify ?_ fun hs => hs
          rw [← hslot, update_eq_self]
        exact ⟨hsame.counted h, rfl⟩
      · next f hf =>
        have hp : pointers k.tasks none (some (pid, fd)) = some f := by
          rw [← hf, ← hparent]
          rfl
        have hget := h.get (a := some (slot, fd)) hslot hp
        rw [← pointers_update k.tasks none (some f) slot fd
          (t := { k.tasks slot with fds := update (k.tasks slot).fds fd (some f) }) rfl]
          at hget
        exact ⟨hget, rfl⟩
    have hother (j : Pid) (d : Fd) (hjd : j ≠ slot ∨ d ≠ fd) :
        ((shareFd (withFiles S) parent slot k fd).tasks j).fds d = (k.tasks j).fds d := by
      unfold shareFd
      split
      · by_cases hj : j = slot
        · subst hj
          simp [hjd.resolve_left (fun hn => hn rfl)]
        · simp [hj]
      · by_cases hj : j = slot
        · subst hj
          simp [hjd.resolve_left (fun hn => hn rfl)]
        · simp [hj]
    obtain ⟨hc, hlog, hfds⟩ := ih hl _
      ((funext fun d => hother pid d (.inl hne)).trans hparent)
      (fun d hd => (hother slot d (.inr fun he => hfd (he ▸ hd))).trans
        (hfree d (List.mem_cons_of_mem _ hd)))
      hstep.1
    exact ⟨hc, hlog.trans hstep.2, fun j hj =>
      (hfds j hj).trans (funext fun d => hother j d (.inl hj))⟩

end Share

/-! ## The steps -/

/-- What every step does: the invariant holds again, and no object that was in use has
been taken from the pool. -/
structure FileStepOk (k k' : Kernel (Files σ)) : Prop where
  inv : FileInv k'
  openings : ∀ f, (k.env.pool f).used = true → k'.env.openings f = k.env.openings f

theorem FileStepOk.of_same (h : FileInv k) (hs : SameFiles k k') :
    FileStepOk k k' := ⟨h.of_same hs, fun f _ => hs.openings f⟩

section Steps

variable (S : Services σ) {k k' : Kernel (Files σ)} {p : Pid} {fd : Fd}

theorem unscheduled_fds : Unscheduled Task.fds := fun _ _ _ _ _ => rfl

theorem unscheduled_unused : Unscheduled fun t => t.state = .unused := unscheduled_state (by decide)

theorem sameFiles_switchTo {next : Pid} (h : (k.tasks next).state = .ready) :
    SameFiles k (switchTo k next) := by
  have henv := switchTo_env k next
  exact ⟨unscheduled_fds.switchTo (fun _ _ => rfl) h, by rw [henv], by rw [henv],
    fun i => (unscheduled_unused.switchTo (fun _ _ => rfl) h i).mp⟩

theorem sameFiles_reschedule (k : Kernel (Files σ)) (rsp : Nat) :
    SameFiles k (reschedule (withFiles S) k rsp) := by
  have hfds := unscheduled_fds.readyTasks (fun _ _ => rfl) { k with savedRsp := rsp }
  have hstate := unscheduled_unused.readyTasks (fun _ _ => rfl) { k with savedRsp := rsp }
  have hneed (k1 : Kernel (Files σ)) (h : SameFiles k k1) :
      SameFiles k { k1 with needReschedule := false } := ⟨h.fds, h.pool, h.log, h.unused⟩
  refine hneed _ (doSchedule_rule _ (fun tasks htasks => ?_)
    (fun k1 p h => h.trans (memStep_freePendingKstack (withFiles S) k1 p).sameFiles)
    fun k1 next hnext h => h.trans (sameFiles_switchTo hnext))
  rw [htasks] at hfds hstate
  exact ⟨hfds, rfl, rfl, fun i => (hstate i).mp⟩

theorem sameFiles_schedulerTick (k : Kernel (Files σ)) : SameFiles k (schedulerTick k) :=
  ⟨fun i => unscheduled_fds.wakeSleeper _ (k.tasks i), rfl, rfl,
    fun i => (unscheduled_unused.wakeSleeper _ (k.tasks i)).mp⟩

/-- The pointer that a call holds goes into an empty descriptor. -/
theorem counted_store {s : Files σ} {held : Option FileId} (h : Counted (pointers tasks held) s)
    (hfd : (tasks i).fds fd = none) :
    Counted (pointers (update tasks i
      { tasks i with fds := update (tasks i).fds fd held }) none) s := by
  rw [pointers_update tasks none held i fd rfl]
  cases held with
  | none =>
    have hsame : pointers tasks none (some (i, fd)) = none := hfd
    rw [update_eq_self_iff.mpr hsame.symm]
    exact h
  | some f =>
    have hmove := h.move (a := none) (b := some (i, fd)) rfl hfd
    rw [pointers_held] at hmove
    exact hmove

theorem freeFd_none {t : Task} (h : freeFd t = some fd) : t.fds fd = none := by
  have hfind := List.find?_some h
  simp only [decide_eq_true_eq] at hfind
  exact hfind.2

variable (h : FileInv k)

include h

theorem fileStepOk_taskFork (hc : Calling k p) (frameRip : Nat) :
    FileStepOk k (taskFork (withFiles S) k frameRip).2 := by
  rcases taskFork_cases (withFiles S) k frameRip with hnone | ⟨p', c, ok, k1, hcur, hslot, hacq, hfork⟩
  · rw [hnone]
    exact .of_same h (.refl k)
  cases hc.current.symm.trans hcur
  have h1 := hacq.memStep.sameFiles
  rw [hfork]
  cases ok with
  | false => exact .of_same h h1
  | true =>
    simp only [if_true]
    have hfree := allocTask_unused hslot
    have hne : p ≠ c := by
      rintro rfl
      rw [hc.running] at hfree
      cases hfree
    have hlinks := links_forkCommit (withFiles S) k1 frameRip hne
    unfold forkCommit at hlinks ⊢
    simp only at hlinks ⊢
    have h2 : SameFiles k1 ((k1.vmmSwitchPml4 (k1.tasks p).cr3).modify c
        (childTask (k1.tasks p) p frameRip)) := by
      refine ⟨fun i => ?_, rfl, rfl, fun i hi => ?_⟩
      · by_cases hi : i = c
        · subst hi
          simp [childTask, vmmSwitchPml4]
        · simp [hi, vmmSwitchPml4]
      · by_cases hic : i = c
        · subst hic
          simp [childTask] at hi
        · simpa [hic, vmmSwitchPml4] using hi
    generalize (k1.vmmSwitchPml4 (k1.tasks p).cr3).modify c
      (childTask (k1.tasks p) p frameRip) = k2 at h2 hlinks ⊢
    have h12 := h1.trans h2
    obtain ⟨hcount, hlog, hfds⟩ := shareFds_spec S hne (List.finRange maxFds)
      (List.nodup_finRange _) k2 (h2.fds p)
      (fun fd _ => by rw [h12.fds]; exact h.free c hfree fd) (h12.counted h.counted)
    generalize (List.finRange maxFds).foldl (shareFd (withFiles S) (k1.tasks p) c) k2 = k3
      at hcount hlog hfds hlinks ⊢
    have hlinkFds (i : Pid) : ((linkChild k3 p c).tasks i).fds = (k3.tasks i).fds := by
      unfold linkChild
      simp only [modify_tasks]
      split_ifs <;> simp_all
    refine ⟨⟨?_, ?_⟩, ?_⟩
    · rw [pointers_congr hlinkFds]
      exact hcount
    · intro i hi fd
      obtain ⟨hp, hother⟩ := eq_update_iff.mp hlinks
      have hic : i ≠ c := by
        rintro rfl
        have hl := (hother i hne.symm).trans (update_self ..)
        cases (congrArg Links.state hl).symm.trans hi
      have hstate : ((linkChild k3 p c).tasks i).state = (k1.tasks i).state := by
        by_cases hip : i = p
        · subst hip
          exact congrArg Links.state hp
        · exact congrArg Links.state ((hother i hip).trans (update_of_ne hic ..))
      rw [hlinkFds, hfds i hic, h12.fds]
      exact h.free i (h1.unused i (hstate.symm.trans hi)) fd
    · intro f _
      have hlog' : (linkChild k3 p c).env.log = k2.env.log := hlog
      rw [Files.openings, hlog', ← Files.openings, h12.openings]

theorem fileStepOk_die {d : Pid} {code : Int}
    (hdie : die (withFiles S) k d code = some k') : FileStepOk k k' := by
  unfold die at hdie
  obtain ⟨tasks, htasks, rfl⟩ := map_eq_some_iff.mp hdie
  have hsame := SameButLinks.taskReparentChildren htasks
  have h1 : SameFiles k (k.setTasks tasks) :=
    .setTasks (fun i => by rw [hsame i]) (fun i hi => (hsame.state i).symm.trans hi)
  obtain ⟨hcount, hlog, hfds⟩ := taskReleaseFds_spec S d _ (h1.counted h.counted)
  have hsched := sameSched_taskReleaseFds (withFiles S) (k.setTasks tasks) d
  generalize taskReleaseFds (withFiles S) (k.setTasks tasks) d = k2 at hcount hlog hfds hsched ⊢
  have h3 := (memStep_freePendingKstack (withFiles S) k2 d).sameFiles
  generalize freePendingKstack (withFiles S) k2 d = k3 at h3 ⊢
  have h4 : SameFiles k3 (k3.modify d fun t => { t with state := .zombie, exitCode := code }) :=
    .modify rfl fun hs => by cases hs
  have h24 := h3.trans h4
  refine ⟨⟨h24.counted hcount, ?_⟩, ?_⟩
  · intro i hi fd
    rw [h24.fds, hfds]
    split
    · rfl
    · rw [h1.fds]
      have hs := h24.unused i hi
      rw [hsched.state] at hs
      exact h.free i (h1.unused i hs) fd
  · intro f _
    rw [h24.openings, hlog, h1.openings]

theorem fileStepOk_reap {c : Pid} (hreap : reap (withFiles S) k p c = some k') :
    FileStepOk k k' := by
  unfold reap at hreap
  obtain ⟨tasks, htasks, rfl⟩ := map_eq_some_iff.mp hreap
  have hsame := SameButLinks.taskRemoveChild htasks
  have h1 : SameFiles k (k.setTasks tasks) :=
    .setTasks (fun i => by rw [hsame i]) (fun i hi => (hsame.state i).symm.trans hi)
  rw [taskCleanup_eq]
  have h2 := h1.trans (memStep_cleanupMemory (withFiles S) (k.setTasks tasks) c).sameFiles
  generalize cleanupMemory (withFiles S) (k.setTasks tasks) c = k2 at h2 ⊢
  obtain ⟨hcount, hlog, hfds⟩ := taskReleaseFds_spec S c _ (h2.counted h.counted)
  have hsched := sameSched_taskReleaseFds (withFiles S) k2 c
  generalize taskReleaseFds (withFiles S) k2 c = k3 at hcount hlog hfds hsched ⊢
  have hfds' (i : Pid) : ((k3.modify c fun t =>
      { t with
        state := .unused
        exitCode := 0
        parentPid := none
        waitForPid := -1
        nextSibling := none
        firstChild := none
        pendingFreeKstack := 0 }).tasks i).fds = (k3.tasks i).fds := by
    by_cases hi : i = c
    · subst hi
      simp
    · simp [hi]
  refine ⟨⟨?_, ?_⟩, ?_⟩
  · rw [pointers_congr hfds']
    exact hcount
  · intro i hi fd
    rw [hfds', hfds]
    split
    · rfl
    · next hic =>
      have hs : (k3.tasks i).state = .unused := by simpa [hic] using hi
      rw [hsched.state] at hs
      rw [h2.fds]
      exact h.free i (h2.unused i hs) fd
  · intro f _
    show k3.env.openings f = _
    rw [hlog, h2.openings]

/-- The slot of a new task had no descriptors to lose. -/
theorem sameFiles_taskCreateArgs (name : List UInt8) (entry arg : Nat) :
    SameFiles k (taskCreateArgs (withFiles S) k name entry arg).2 := by
  rcases taskCreateArgs_cases (withFiles S) k name entry arg with
    heq | ⟨slot, ok, k1, hslot, hacq, hcases⟩
  · rw [heq]
    exact .refl k
  have h1 := hacq.memStep.sameFiles
  have hfill {f : Task → Task} (hfds : ∀ t, (f t).fds = fun _ => none)
      (hused : ∀ t, (f t).state ≠ .unused) : SameFiles k (k1.modify slot f) := by
    refine h1.trans (.modify ?_ fun hs => absurd hs (hused _))
    rw [hfds, h1.fds]
    exact (funext (h.free slot (allocTask_unused hslot))).symm
  rcases hcases with ⟨-, heq⟩ | ⟨-, -, heq⟩ | ⟨-, -, heq⟩
  · rw [heq]
    exact h1
  · rw [heq]
    have h2 := hfill (f := fun t => { freshTask none entry arg t with state := .running })
      (fun t => rfl) fun t ht => by cases ht
    exact ⟨h2.fds, h2.pool, h2.log, h2.unused⟩
  · rw [heq]
    exact hfill (fun t => rfl) fun t ht => by cases ht

theorem fileStepOk_syscall (hc : Calling k p) {op : Op}
    (hs : syscall (withFiles S) k op = some k') : FileStepOk k k' := by
  have hneed : SameFiles k { k with needReschedule := true } :=
    ⟨fun _ => rfl, rfl, rfl, fun _ hi => hi⟩
  cases called_syscall (withFiles S) hc.current hs with
  | same => exact .of_same h (.refl k)
  | fork frameRip => exact fileStepOk_taskFork S h hc frameRip
  | exec path argv => exact .of_same h (memStep_doExec (withFiles S) k path argv).sameFiles
  | exit died =>
    obtain ⟨⟨hcount, hfree⟩, hlog⟩ := fileStepOk_die S h died
    exact ⟨⟨hcount, hfree⟩, hlog⟩
  | kill _ _ _ _ died => exact fileStepOk_die S h died
  | reap _ _ _ _ reaped => exact fileStepOk_reap S h reaped
  | block => exact .of_same h (hneed.trans (.modify rfl fun hs => by cases hs))
  | sleep ms => exact .of_same h (hneed.trans (.modify rfl fun hs => by cases hs))
  | yield => exact .of_same h hneed
  | setPriority i => exact .of_same h (.modify rfl fun hs => hs)

theorem fileStepOk_proc {op : Op} (hs : step (withFiles S) k op = some k') : FileStepOk k k' := by
  rcases step_cases hs with
    ⟨p, hp, hcall⟩ | ⟨rfl, rfl⟩ | ⟨rsp, rfl, rfl⟩ | ⟨name, entry, rfl, rfl⟩
  · exact fileStepOk_syscall S h hp hcall
  · exact .of_same h (sameFiles_schedulerTick k)
  · exact .of_same h (sameFiles_reschedule S k rsp)
  · exact .of_same h (sameFiles_taskCreateArgs S h name entry 0)

/-! ## Opening and closing -/

/-- A call of `vfs_open`: what it returns is the only new pointer. -/
theorem ask_vfsOpen {flags : Int} {mounts : List (MountOpen σ)}
    {res : Option FileId} (hr : k.ask (vfsOpen S flags mounts) = (res, k')) :
    k'.tasks = k.tasks ∧ Counted (pointers k.tasks res) k'.env ∧
      ∀ f, (k.env.pool f).used = true → k'.env.openings f = k.env.openings f := by
  obtain ⟨hres, rfl⟩ := Prod.mk.inj hr
  have hopen := vfsOpen_counted S h.counted (a := none) rfl
    (Prod.eta (vfsOpen S flags mounts k.env)).symm
  rw [pointers_held, hres] at hopen
  exact ⟨rfl, hopen⟩

theorem free_store (hi : (k.tasks i).state ≠ .unused) {v : Option FileId} (j : Pid)
    (hj : ((k.modify i fun t => { t with fds := update t.fds fd v }).tasks j).state = .unused)
    (d : Fd) :
    ((k.modify i fun t => { t with fds := update t.fds fd v }).tasks j).fds d = none := by
  have hji : j ≠ i := by
    rintro rfl
    simp only [modify_tasks, if_true] at hj
    exact hi hj
  simp only [modify_tasks, hji, if_false] at hj ⊢
  exact h.free j hj d

theorem fileStepOk_sysOpen (hc : Calling k p) (flags : Int)
    (mounts : List (MountOpen σ)) : FileStepOk k (sysOpen S k flags mounts).2 := by
  unfold sysOpen
  rw [hc.current]
  have hp : (k.tasks p).state ≠ .unused := by simp [hc.running]
  generalize hask : k.ask (vfsOpen S flags mounts) = r
  obtain ⟨res, k1⟩ := r
  obtain ⟨htasks, hcount, hlog⟩ := ask_vfsOpen S h hask
  cases res with
  | none =>
    refine ⟨⟨?_, ?_⟩, hlog⟩
    · rw [htasks]
      exact hcount
    · rw [htasks]
      exact h.free
  | some f =>
    dsimp only
    rw [htasks]
    cases hfd : freeFd (k.tasks p) with
    | some fd =>
      have htasks' : (k1.modify p fun t =>
          { t with fds := update t.fds fd (some f) }).tasks =
          (k.modify p fun t => { t with fds := update t.fds fd (some f) }).tasks := by
        simp only [Kernel.modify, htasks]
      refine ⟨⟨?_, ?_⟩, hlog⟩
      · rw [htasks']
        exact counted_store hcount (freeFd_none hfd)
      · rw [htasks']
        exact free_store h hp
    | none =>
      have hput := hcount.put S (a := none) rfl
      rw [pointers_held] at hput
      refine ⟨⟨?_, ?_⟩, fun x hx => ?_⟩
      · rw [Kernel.call_tasks, htasks]
        exact hput
      · rw [Kernel.call_tasks, htasks]
        exact h.free
      · exact (openings_put S k1.env f x).trans (hlog x hx)

theorem fileStepOk_sysClose (hc : Calling k p) (fd : Int) : FileStepOk k (sysClose S k fd).2 := by
  unfold sysClose
  rw [hc.current]
  dsimp only
  have hp : (k.tasks p).state ≠ .unused := by simp [hc.running]
  split
  · next hrange =>
    generalize hd : (⟨fd.toNat, _⟩ : Fd) = d
    cases hf : (k.tasks p).fds d with
    | none => exact .of_same h (.refl k)
    | some f =>
      have hput := h.counted.put S (a := some (p, d)) hf
      rw [← pointers_update k.tasks none none p d
        (t := { k.tasks p with fds := update (k.tasks p).fds d none }) rfl] at hput
      exact ⟨⟨hput, free_store h hp⟩, fun x _ => openings_put S k.env f x⟩
  · exact .of_same h (.refl k)

theorem fileStepOk_bootOpen (hi : (k.tasks init).state ≠ .unused)
    (hfd : (k.tasks init).fds fd = none) (flags : Int) (mounts : List (MountOpen σ)) :
    FileStepOk k (bootOpen S k fd flags mounts) := by
  unfold bootOpen
  generalize hask : k.ask (vfsOpen S flags mounts) = r
  obtain ⟨res, k1⟩ := r
  obtain ⟨htasks, hcount, hlog⟩ := ask_vfsOpen S h hask
  have htasks' : (k1.modify init fun t =>
      { t with fds := update t.fds fd res }).tasks =
      (k.modify init fun t => { t with fds := update t.fds fd res }).tasks := by
    simp only [Kernel.modify, htasks]
  refine ⟨⟨?_, ?_⟩, hlog⟩
  · dsimp only
    rw [htasks']
    exact counted_store hcount hfd
  · dsimp only
    rw [htasks']
    exact free_store h hi

theorem fileStep_ok {op : FileOp σ} (hs : fileStep S k op = some k') : FileStepOk k k' := by
  cases op with
  | proc op => exact fileStepOk_proc S h hs
  | «open» flags mounts =>
    simp only [fileStep] at hs
    split at hs
    · next hcaller =>
      obtain ⟨p, hp⟩ := calling_of_caller hcaller
      cases hs
      exact fileStepOk_sysOpen S h hp flags mounts
    · cases hs
  | close fd =>
    simp only [fileStep] at hs
    split at hs
    · next hcaller =>
      obtain ⟨p, hp⟩ := calling_of_caller hcaller
      cases hs
      exact fileStepOk_sysClose S h hp fd
    · cases hs
  | bootOpen fd flags mounts =>
    simp only [fileStep] at hs
    split at hs
    · next hinit =>
      cases hs
      exact fileStepOk_bootOpen S h hinit.1 hinit.2 flags mounts
    · cases hs

end Steps

/-! ## Runs -/

/-- The file layer as boot finds it: its statics are zero and no descriptor is set. -/
structure NoFiles (k : Kernel (Files σ)) : Prop where
  pool : ∀ f, (k.env.pool f).used = false
  log : k.env.log = []
  fds : ∀ i fd, (k.tasks i).fds fd = none

theorem NoFiles.fileInv (h : NoFiles k) : FileInv k where
  counted := by
    refine ⟨fun f hf => ?_, fun f _ => ?_, fun f => ?_⟩
    · rw [h.pool f] at hf
      cases hf
    · refine count_eq_zero.mpr fun s => ?_
      cases s with
      | none => simp [pointers]
      | some s => simp [pointers, h.fds]
    · simp [h.log, h.pool]
  free i _ fd := h.fds i fd

/-- A descriptor that is left keeps its object in use; the last one closes it. -/
theorem FileStepOk.closings (h : FileInv k) (hs : FileStepOk k k') {f : FileId}
    (hf : 1 ≤ slotCount k f) : k'.env.log.count (.closed f) =
      k.env.log.count (.closed f) + if slotCount k' f = 0 then 1 else 0 := by
  have hused : (k.env.pool f).used = true := by
    by_contra hn
    have hzero := h.counted.unused f (by simpa using hn)
    rw [count_pointers] at hzero
    omega
  have hbefore := h.counted.ledger f
  have hafter := hs.inv.counted.ledger f
  have hopen := hs.openings f hused
  unfold Files.openings at hopen
  rw [hused, if_pos rfl] at hbefore
  cases hused' : (k'.env.pool f).used with
  | true =>
    have hpos := (hs.inv.counted.used f hused').2
    rw [count_pointers] at hpos
    rw [hused', if_pos rfl] at hafter
    rw [if_neg (by omega)]
    omega
  | false =>
    have hzero := hs.inv.counted.unused f hused'
    rw [count_pointers] at hzero
    simp only [hused', Bool.false_eq_true, if_false] at hafter
    rw [if_pos hzero]
    omega

/-- In every state of every run: the reference count of an object in use is the number of
descriptors that point to it, which is not zero, and no descriptor points to an unused
object. An object has been closed once for each time it was taken from the pool, except
for the use it is in; and a step closes an object that descriptors point to exactly when
it takes the last of them away. -/
theorem file_reference_counts (S : Services σ) (k₀ : Kernel (Files σ)) (hboot : NoFiles k₀)
    (ops : List (FileOp σ)) (k : Kernel (Files σ)) (hrun : run (fileStep S) k₀ ops = some k) :
    (∀ f, (k.env.pool f).used = true →
      (k.env.pool f).refcount = slotCount k f ∧ 1 ≤ slotCount k f) ∧
    (∀ i fd f, (k.tasks i).fds fd = some f → (k.env.pool f).used = true) ∧
    (∀ f, k.env.log.count (.opened f) =
      k.env.log.count (.closed f) + if (k.env.pool f).used then 1 else 0) ∧
    (∀ op k' f, fileStep S k op = some k' → 1 ≤ slotCount k f →
      k'.env.log.count (.closed f) =
        k.env.log.count (.closed f) + if slotCount k' f = 0 then 1 else 0) := by
  have hinv : FileInv k := run_invariant (fileStep S)
    (fun _ _ _ h hs => (fileStep_ok S h hs).inv) hboot.fileInv hrun
  refine ⟨fun f hf => ?_, fun i fd f hf => ?_, hinv.counted.ledger, fun op k' f hs hf => ?_⟩
  · rw [← count_pointers]
    exact hinv.counted.used f hf
  · exact hinv.counted.used_of_pointer (a := some (i, fd)) hf
  · exact (fileStep_ok S hinv hs).closings hinv hf

/-- The booted system over an empty pool. -/
def bumpFilesBoot : Kernel (Files Nat) :=
  (boot (withFiles bumpServices) (schedulerInit (withFiles bumpServices)
    (Kernel.zeroed ⟨fun _ => .empty, [], 4096⟩)) 0x400000).2

/-- Init opens a file and forks: object 0 has two descriptors and two references. -/
theorem file_reference_counts_fork : ∃ k, run (fileStep bumpServices) bumpFilesBoot
    [.proc (.reschedule 0), .open 0 [fun e => (⟨true, some .ramfsFile, 8⟩, e)], .proc (.fork 0)] =
      some k ∧ (k.env.pool ⟨0, by decide⟩).refcount = 2 ∧ slotCount k ⟨0, by decide⟩ = 2 := by
  have hboot : NoFiles bumpFilesBoot := ⟨fun _ => rfl, rfl, by decide +kernel⟩
  have hcount : ((run (fileStep bumpServices) bumpFilesBoot
      [.proc (.reschedule 0), .open 0 [fun e => (⟨true, some .ramfsFile, 8⟩, e)],
        .proc (.fork 0)]).map fun k =>
      ((k.env.pool ⟨0, by decide⟩).used, (k.env.pool ⟨0, by decide⟩).refcount)) =
      some (true, 2) := by
    decide +kernel
  obtain ⟨k, hrun, hk⟩ := map_eq_some_iff.mp hcount
  obtain ⟨hused, href⟩ := Prod.mk.inj hk
  have hslots := ((file_reference_counts bumpServices _ hboot _ k hrun).1 _ hused).1
  exact ⟨k, hrun, href, by omega⟩

end Crius.Process
