import Crius.Process.ChildList
import Crius.Process.Effect

/-!
# Sleepers

`task_sleep` stores the deadline `scheduler_ticks_total + ms` as a 64-bit sum. Both
`scheduler_tick` and `do_schedule` wake a sleeper as soon as the counter has reached the
stored value, and nothing else changes that value, so a sleeper wakes too early exactly if
the sum has wrapped around.
-/
namespace Crius.Process

open Lib.Run Function

variable {σ : Type} {S : Services σ} {k k' : Kernel σ} {p : Pid} {op : Op}

theorem readied_sleeping (h : (readied k p).state = .sleeping) :
    (readied k p).sleepUntil = (k.links p).sleepUntil := by
  unfold readied at h ⊢
  dsimp only at h ⊢
  split_ifs at h ⊢
  rfl

theorem readied_woken_iff (h : (k.links p).state = .sleeping) :
    (readied k p).state ≠ .sleeping ↔ (k.links p).sleepUntil ≤ k.schedulerTicksTotal := by
  unfold readied
  by_cases hle : (k.links p).sleepUntil ≤ k.schedulerTicksTotal <;> simp [h, hle]

/-- No step gives a task that sleeps on another deadline. -/
theorem Effect.sleepUntil {e : Event} (he : Effect k k' e) (h : (k.links p).state = .sleeping)
    (h' : (k'.links p).state = .sleeping) : (k'.links p).sleepUntil = (k.links p).sleepUntil := by
  have hne {i : Pid} {s : TaskState} (hi : (k.tasks i).state = s) (hs : s ≠ .sleeping) : p ≠ i := by
    rintro rfl
    exact hs (hi.symm.trans h)
  cases he with
  | same links => rw [links]
  | forked caller free links =>
    rw [links, update_of_ne (hne caller.running (by decide)), update_of_ne (hne free (by decide))]
  | @died d tasks _ _ reparent links =>
    rw [links] at h' ⊢
    by_cases hd : p = d
    · subst hd
      rw [update_self] at h'
      cases h'
    · rw [update_of_ne hd]
      exact (SameButLinks.taskReparentChildren reparent).sleepUntil p
  | reaped _ zombie _ remove links =>
    rw [links, update_of_ne (hne zombie (by decide))]
    exact (SameButLinks.taskRemoveChild remove).sleepUntil p
  | blocked caller _ links => rw [links, update_of_ne (hne caller.running (by decide))]
  | slept caller links => rw [links, update_of_ne (hne caller.running (by decide))]
  | ticked links =>
    rw [links] at h' ⊢
    dsimp only at h' ⊢
    unfold wakeSleeper at h' ⊢
    split_ifs at h' ⊢
    · cases h'
    · rfl
  | @scheduled next _ links =>
    rw [links] at h' ⊢
    by_cases hn : p = next
    · subst hn
      rw [update_self] at h'
      cases h'
    · rw [update_of_ne hn] at h' ⊢
      exact readied_sleeping h'
  | idled _ links =>
    rw [links] at h' ⊢
    exact readied_sleeping h'
  | created free links => rw [links, update_of_ne (hne free (by decide))]
  | first free links => rw [links, update_of_ne (hne free (by decide))]

theorem schedulerTicksTotal_reschedule (S : Services σ) (k : Kernel σ) (rsp : Nat) :
    (reschedule S k rsp).schedulerTicksTotal = k.schedulerTicksTotal := by
  have hswitch (k : Kernel σ) (next : Pid) :
      (switchTo k next).schedulerTicksTotal = k.schedulerTicksTotal := by
    unfold switchTo
    simp only
    split <;> rfl
  have hrelease (k : Kernel σ) :
      (releasePrev S k).schedulerTicksTotal = k.schedulerTicksTotal := by
    unfold releasePrev freePendingKstack
    split
    · rfl
    · split <;> rfl
  unfold reschedule doSchedule
  generalize readyTasks { k with savedRsp := rsp } = tasks
  dsimp only
  split
  · rfl
  · rw [hswitch, hrelease]
    rfl

/-- The operations that can wake a sleeper. -/
def Op.Wakes : Op → Prop
  | .tick | .reschedule _ => True
  | _ => False

/-- A tick and a reschedule wake a sleeper if and only if the counter has reached its
deadline. -/
theorem woken_iff (hop : op.Wakes) (hstep : step S k op = some k')
    (h : (k.tasks p).state = .sleeping) :
    (k'.tasks p).state ≠ .sleeping ↔ (k.tasks p).sleepUntil ≤ k'.schedulerTicksTotal := by
  cases op with
  | tick =>
    obtain rfl := Option.some.inj hstep
    show (wakeSleeper (schedulerTick k).schedulerTicksTotal (k.tasks p)).state ≠ _ ↔ _
    generalize (schedulerTick k).schedulerTicksTotal = now
    unfold wakeSleeper
    by_cases hle : (k.tasks p).sleepUntil ≤ now <;> simp [h, hle]
  | reschedule rsp =>
    obtain rfl := Option.some.inj hstep
    rw [schedulerTicksTotal_reschedule]
    have hiff : (readied { k with savedRsp := rsp } p).state ≠ .sleeping ↔ _ :=
      readied_woken_iff h
    refine Iff.trans ?_ hiff
    have hsched := doSchedule_links S { k with savedRsp := rsp }
    unfold reschedule
    generalize doSchedule S { k with savedRsp := rsp } = k1 at hsched ⊢
    show (k1.links p).state ≠ .sleeping ↔ _
    rcases hsched with ⟨next, hnext, hlinks, -⟩ | ⟨-, hlinks, -⟩
    · rw [hlinks]
      by_cases hn : p = next
      · subst hn
        rw [update_self, hnext]
        simp
      · rw [update_of_ne hn]
    · rw [hlinks]
  | _ => cases hop

/-- From any call of `SYS_SLEEP` on, in every run in which the task goes on sleeping, no tick
and no reschedule wakes it before the counter has reached the tick of the call plus `ms`, if
and only if that sum is below `2^64`. -/
theorem sleeper_never_early_iff (S : Services σ) (hp : Calling k p) {ms : Nat}
    (hnow : k.schedulerTicksTotal < 2 ^ 64) (hms : ms < 2 ^ 64) :
    (∀ ops k₁ op k₂, run (step S) (taskSleep k ms) ops = some k₁ →
        Along (step S) (fun k _ => (k.tasks p).state = .sleeping) (taskSleep k ms) ops →
        op.Wakes → step S k₁ op = some k₂ →
        (k₁.tasks p).state = .sleeping → (k₂.tasks p).state ≠ .sleeping →
        k.schedulerTicksTotal + ms ≤ k₂.schedulerTicksTotal) ↔
      k.schedulerTicksTotal + ms < 2 ^ 64 := by
  have hslept : (taskSleep k ms).tasks p = { k.tasks p with
      sleepUntil := (k.schedulerTicksTotal + ms) % 2 ^ 64, state := .sleeping } := by
    unfold taskSleep
    rw [hp.current, Kernel.modify_tasks, if_pos rfl]
  constructor
  · -- a deadline that has wrapped is not after the call, so the next reschedule wakes
    intro hall
    by_contra hwrap
    have hstate : ((taskSleep k ms).tasks p).state = .sleeping := by rw [hslept]
    have hticks : (taskSleep k ms).schedulerTicksTotal = k.schedulerTicksTotal := by
      unfold taskSleep
      rw [hp.current]
      rfl
    have hstep : step S (taskSleep k ms) (.reschedule 0) = some _ := rfl
    have hwoken := (woken_iff (show Op.Wakes (.reschedule 0) from trivial) hstep hstate).mpr (by
      rw [schedulerTicksTotal_reschedule, hticks, hslept]
      dsimp only
      omega)
    have hearly := hall [] _ (.reschedule 0) _ rfl trivial trivial hstep hstate hwoken
    rw [schedulerTicksTotal_reschedule, hticks] at hearly
    omega
  · intro hsum ops k1 op k2 hrun halong hop hstep hsleeps hwoken
    -- as long as the task sleeps, its deadline is the sum
    have hkeep (k1 : Kernel σ) (op : Op) (k2 : Kernel σ)
        (hinv : (k1.links p).state = .sleeping → (k1.links p).sleepUntil =
          k.schedulerTicksTotal + ms) (hs : (k1.tasks p).state = .sleeping)
        (hstep : step S k1 op = some k2) (hs' : (k2.links p).state = .sleeping) :
        (k2.links p).sleepUntil = k.schedulerTicksTotal + ms :=
      ((step_effect S hstep).sleepUntil hs hs').trans (hinv hs)
    have hdeadline := run_invariant_along (step S) hkeep (fun _ => by
      show ((taskSleep k ms).tasks p).sleepUntil = _
      rw [hslept]
      exact Nat.mod_eq_of_lt hsum) halong hrun hsleeps
    have hle := (woken_iff hop hstep hsleeps).mp hwoken
    rwa [show (k1.tasks p).sleepUntil = _ from hdeadline] at hle

/-- Init runs, one tick after boot. -/
def secondTick : Kernel Nat :=
  (run (step bumpServices) bumpBoot [.tick, .reschedule 0]).getD bumpBoot

theorem sleeper_never_early_iff_ten :
    ((taskSleep secondTick 10).tasks init).state = .sleeping ∧
      ∀ ops k₁ op k₂, run (step bumpServices) (taskSleep secondTick 10) ops = some k₁ →
        Along (step bumpServices) (fun k _ => (k.tasks init).state = .sleeping)
          (taskSleep secondTick 10) ops →
        op.Wakes → step bumpServices k₁ op = some k₂ →
        (k₁.tasks init).state = .sleeping → (k₂.tasks init).state ≠ .sleeping →
        1 + 10 ≤ k₂.schedulerTicksTotal := by
  have hticks : secondTick.schedulerTicksTotal = 1 := by decide +kernel
  have hcall : Calling secondTick init := ⟨by decide +kernel, by decide, by decide +kernel⟩
  have hearly := (sleeper_never_early_iff bumpServices hcall (by rw [hticks]; decide)
    (show 10 < 2 ^ 64 by decide)).mpr (by rw [hticks]; decide)
  rw [hticks] at hearly
  exact ⟨by decide +kernel, hearly⟩

/-- A task that sleeps for `2^64 - 1` milliseconds is woken by the next reschedule. It makes way
for the idle task only, and runs again with the one after it. -/
theorem long_sleep_ends_at_once :
    ((taskSleep secondTick (2 ^ 64 - 1)).tasks init).state = .sleeping ∧
      let woken := reschedule bumpServices (taskSleep secondTick (2 ^ 64 - 1)) 0
      (woken.tasks init).state = .ready ∧ woken.schedulerTicksTotal = 1 ∧
        ((reschedule bumpServices woken 0).tasks init).state = .running := by
  decide +kernel

end Crius.Process
