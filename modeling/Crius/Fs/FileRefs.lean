import Crius.Fs.Open
import Crius.Lib.RefCount

/-!
# Reference counts of file objects

A table `g` of pointers to file objects agrees with the pool when each used object has
one reference for each pointer, and at least one, and nothing points to an unused
object. The ledger relates the pool to the log: every opening has been followed by one
closing, except that of an object that is in use. The four things that the code does
with pointers keep this: it takes an object from the pool, it copies a pointer, it drops
one, and it moves one.
-/
namespace Crius.Fs

open Lib.RefCount Process Function Option Nat List

variable {σ α : Type} [Fintype α]

structure Counted (g : α → Option FileId) (s : Files σ) : Prop where
  used : ∀ f, (s.pool f).used = true → (s.pool f).refcount = count g f ∧ 0 < count g f
  unused : ∀ f, (s.pool f).used = false → count g f = 0
  ledger : ∀ f, s.log.count (.opened f) =
    s.log.count (.closed f) + if (s.pool f).used then 1 else 0

/-- What `Counted` says of one object. -/
def CountedAt (g : α → Option FileId) (s : Files σ) (f : FileId) : Prop :=
  ((s.pool f).used = true → (s.pool f).refcount = count g f ∧ 0 < count g f) ∧
    ((s.pool f).used = false → count g f = 0) ∧
    s.log.count (.opened f) = s.log.count (.closed f) + if (s.pool f).used then 1 else 0

namespace Counted

variable {g : α → Option FileId} {s : Files σ}

theorem at_object (h : Counted g s) (f : FileId) : CountedAt g s f :=
  ⟨h.used f, h.unused f, h.ledger f⟩

theorem of_objects (h : ∀ f, CountedAt g s f) : Counted g s :=
  ⟨fun f => (h f).1, fun f => (h f).2.1, fun f => (h f).2.2⟩

variable {a : α} {f : FileId} (h : Counted g s)

include h

/-- An object that something points to is in use. -/
theorem used_of_pointer (ha : g a = some f) : (s.pool f).used = true := by
  by_contra hf
  have hzero := h.unused f (by simpa using hf)
  exact count_eq_zero.mp hzero a ha

theorem rest (r : σ) : Counted g { s with rest := r } :=
  ⟨h.used, h.unused, h.ledger⟩

/-- Changes of the other fields of an object. -/
theorem setObject {m : File → File} (hm : ∀ o, (m o).used = o.used ∧ (m o).refcount = o.refcount) :
    Counted g (s.setObject f m) := by
  refine of_objects fun x => ?_
  by_cases hx : x = f
  · subst hx
    simpa [CountedAt, Files.setObject, hm] using h.at_object x
  · simpa [CountedAt, Files.setObject, hx] using h.at_object x

variable [DecidableEq α]

/-- `file_alloc` hands out an object that nothing points to. -/
theorem alloc {pool : FilePool} (ha : g a = none) (hf : fileAlloc s.pool = some (f, pool)) :
    Counted (update g a (some f)) { s with pool := pool, log := s.log ++ [.opened f] } := by
  unfold fileAlloc at hf
  split at hf
  · cases hf
  next i hfind =>
  obtain ⟨rfl, rfl⟩ := Prod.mk.inj (some.inj hf)
  have hfree : (s.pool i).used = false := by
    simpa using find?_some hfind
  have hnew := count_update g a (some i)
  simp only [ha, some.injEq, reduceCtorEq, if_false, add_zero] at hnew
  refine of_objects fun x => ?_
  by_cases hxi : x = i
  · subst hxi
    simp [CountedAt, hnew, h.unused x hfree, count_append, h.ledger x, hfree]
  · simpa [CountedAt, hnew, hxi, Ne.symm hxi, count_append] using h.at_object x

/-- `file_get` and the copy of a pointer into an empty entry. -/
theorem get {b : α} (ha : g a = none) (hb : g b = some f) :
    Counted (update g a (some f)) (s.get f) := by
  have hused := h.used_of_pointer hb
  have hnew := count_update g a (some f)
  simp only [ha, some.injEq, reduceCtorEq, if_false, add_zero] at hnew
  refine of_objects fun x => ?_
  by_cases hxf : x = f
  · subst hxf
    simp [CountedAt, Files.get, fileGet, hnew, hused, h.used x hused, h.ledger x]
  · simpa [CountedAt, Files.get, fileGet, hnew, hxf, Ne.symm hxf] using h.at_object x

/-- Dropping a pointer: `file_put` and the clearing of its entry. -/
theorem put (S : Services σ) (ha : g a = some f) : Counted (update g a none) (s.put S f) := by
  have hused := h.used_of_pointer ha
  obtain ⟨hr, hpos⟩ := h.used f hused
  have hnew := count_update g a none
  simp only [ha, some.injEq, reduceCtorEq, if_false, add_zero] at hnew
  have hf := hnew f
  rw [if_pos rfl] at hf
  have hother (x : FileId) (hx : x ≠ f) : count (update g a none) x = count g x := by
    have := hnew x
    rwa [if_neg (Ne.symm hx), add_zero] at this
  unfold Files.put filePut
  by_cases hlast : (s.pool f).refcount - 1 ≤ 0
  · -- the last pointer: the object goes back to the pool
    have hzero : count (update g a none) f = 0 := by omega
    simp only [if_pos hlast]
    refine of_objects fun x => ?_
    by_cases hxf : x = f
    · subst hxf
      simp [CountedAt, hzero, count_append, h.ledger x, hused]
    · simpa [CountedAt, hother x hxf, hxf, Ne.symm hxf, count_append] using h.at_object x
  · simp only [if_neg hlast]
    refine of_objects fun x => ?_
    by_cases hxf : x = f
    · subst hxf
      have hcount : (s.pool x).refcount - 1 = count (update g a none) x ∧
          0 < count (update g a none) x := by omega
      simp [CountedAt, hused, hcount, h.ledger x]
    · simpa [CountedAt, hother x hxf, hxf] using h.at_object x

/-- Moving a pointer from one entry to an empty one. -/
theorem move {b : α} (ha : g a = some f) (hb : g b = none) :
    Counted (update (update g a none) b (some f)) s := by
  have hab : b ≠ a := by
    rintro rfl
    rw [ha] at hb
    cases hb
  have hcount (x : FileId) :
      count (update (update g a none) b (some f)) x = count g x := by
    have h1 := count_update g a none x
    have h2 := count_update (update g a none) b (some f) x
    rw [update_of_ne hab, hb] at h2
    rw [ha] at h1
    simp only [reduceCtorEq, if_false, add_zero] at h1 h2
    omega
  refine ⟨?_, ?_, h.ledger⟩
  · intro x hx
    rw [hcount]
    exact h.used x hx
  · intro x hx
    rw [hcount]
    exact h.unused x hx

end Counted

/-! ## Openings in the log -/

/-- The number of times the object has been taken from the pool. -/
def Files.openings (s : Files σ) (f : FileId) : Nat := s.log.count (.opened f)

@[simp] theorem openings_put (S : Services σ) (s : Files σ) (f x : FileId) :
    (s.put S f).openings x = s.openings x := by
  unfold Files.put Files.openings
  split
  · rfl
  · simp [count_append]

/-! ## `vfs_open` -/

section Open

variable {g : α → Option FileId} {a : α} {f : FileId} {s s' : Files σ} (S : Services σ)

theorem Counted.behind {β : Type} {r : β} (h : Counted g s) {m : σ → β × σ}
    (hm : s.behind m = (r, s')) : Counted g s' ∧ ∀ x, s'.openings x = s.openings x := by
  cases hm
  exact ⟨h.rest _, fun _ => rfl⟩

variable [DecidableEq α] {res : Option FileId}

/-- The outcome of a call that was given the object `f` through entry `a`: it comes back
through the entry, or the entry is dropped. -/
def Returned (g : α → Option FileId) (a : α) (f : FileId) (s : Files σ) : Option FileId → Prop
  | some f' => f' = f ∧ Counted g s
  | none => Counted (Function.update g a none) s

/-- The outcome of asking mounts: they decide, or the entry is as before. -/
def Asked (g : α → Option FileId) (a : α) (f : FileId) (s : Files σ) :
    Option (Option FileId) → Prop
  | some res => Returned g a f s res
  | none => Counted g s

section Pointer

variable (h : Counted g s) (ha : g a = some f) {m : MountOpen σ}

include h ha

theorem finishOpen_returned (hr : finishOpen S f s = (res, s')) :
    Returned g a f s' res ∧ ∀ x, s'.openings x = s.openings x := by
  unfold finishOpen at hr
  split at hr
  · split at hr
    · split at hr
      next dh s1 hdh =>
      obtain ⟨h1, hlog⟩ := h.behind hdh
      split at hr
      · cases hr
        exact ⟨h1.put S ha, fun x => (openings_put S s1 f x).trans (hlog x)⟩
      · cases hr
        exact ⟨⟨rfl, h1.setObject fun _ => ⟨rfl, rfl⟩⟩, hlog⟩
    · cases hr
      exact ⟨⟨rfl, h⟩, fun _ => rfl⟩
  · cases hr
    exact ⟨⟨rfl, h⟩, fun _ => rfl⟩

theorem tryMount_asked {res : Option (Option FileId)} (hr : tryMount S f m s = (res, s')) :
    Asked g a f s' res ∧ ∀ x, s'.openings x = s.openings x := by
  unfold tryMount at hr
  split at hr
  next r s1 hm =>
  obtain ⟨h1, hlog⟩ := h.behind hm
  have h2 : Counted g (s1.setObject f fun o => { o with ops := r.ops, priv := r.priv }) :=
    h1.setObject fun _ => ⟨rfl, rfl⟩
  simp only at hr
  split at hr
  · generalize hfin : finishOpen S f _ = fin at hr
    obtain ⟨res', s2⟩ := fin
    cases hr
    obtain ⟨hret, hlog'⟩ := finishOpen_returned S h2 ha hfin
    exact ⟨hret, fun x => (hlog' x).trans (hlog x)⟩
  · cases hr
    exact ⟨h2, hlog⟩

theorem tryMounts_asked {ms : List (MountOpen σ)}
    {res : Option (Option FileId)} (hr : tryMounts S f ms s = (res, s')) :
    Asked g a f s' res ∧ ∀ x, s'.openings x = s.openings x := by
  induction ms generalizing s with
  | nil =>
    cases hr
    exact ⟨h, fun _ => rfl⟩
  | cons m ms ih =>
    unfold tryMounts at hr
    split at hr
    · next r s1 hm =>
      cases hr
      exact tryMount_asked S h ha hm
    · next s1 hm =>
      obtain ⟨h1, hlog⟩ := tryMount_asked S h ha hm
      have h2 : Counted g (s1.setObject f fun o => { o with ops := none, priv := 0 }) :=
        Counted.setObject h1 fun _ => ⟨rfl, rfl⟩
      obtain ⟨hret, hlog'⟩ := ih h2 hr
      exact ⟨hret, fun x => (hlog' x).trans (hlog x)⟩

theorem retryMount_returned {flags : Int} (hr : retryMount S f flags m s = (res, s')) :
    Returned g a f s' res ∧ ∀ x, s'.openings x = s.openings x := by
  unfold retryMount at hr
  split at hr
  · split at hr
    · next r s1 hm =>
      cases hr
      exact tryMount_asked S h ha hm
    · next s1 hm =>
      obtain ⟨h1, hlog⟩ := tryMount_asked S h ha hm
      cases hr
      exact ⟨Counted.put h1 S ha, fun x => (openings_put S s1 f x).trans (hlog x)⟩
  · cases hr
    exact ⟨h.put S ha, fun x => openings_put S s f x⟩

end Pointer

/-- `vfs_open` leaves its result in the entry that was empty before, or leaves nothing
there; and it takes no object from the pool that was in use. -/
theorem vfsOpen_counted (h : Counted g s) (ha : g a = none) {flags : Int}
    {mounts : List (MountOpen σ)} (hr : vfsOpen S flags mounts s = (res, s')) :
    Counted (update g a res) s' ∧
      ∀ x, (s.pool x).used = true → s'.openings x = s.openings x := by
  have hnone : update g a none = g := by rw [← ha, update_eq_self]
  unfold vfsOpen at hr
  split at hr
  · cases hr
    exact ⟨by rw [hnone]; exact h, fun _ _ => rfl⟩
  next m ms =>
  split at hr
  · cases hr
    exact ⟨by rw [hnone]; exact h, fun _ _ => rfl⟩
  next f pool hf =>
  have hopened (x : FileId) (hx : (s.pool x).used = true) :
      (s.log ++ [FileEvent.opened f]).count (.opened x) = s.log.count (.opened x) := by
    have hxf : f ≠ x := by
      rintro rfl
      rw [fileAlloc_unused hf] at hx
      cases hx
    simp [count_append, hxf]
  have hself : update g a (some f) a = some f := update_self _ _ _
  have h1 : Counted (update g a (some f)) (Files.setObject f
      (fun o => { o with flags := flags })
      { s with pool := pool, log := s.log ++ [.opened f] }) :=
    (h.alloc ha hf).setObject fun _ => ⟨rfl, rfl⟩
  -- whatever the mounts did, the object is in the entry or the entry is empty
  have hdone {r : Option FileId} {t : Files σ}
      (hret : Returned (update g a (some f)) a f t r) :
      Counted (update g a r) t := by
    cases r with
    | some f' =>
      obtain ⟨rfl, ht⟩ := hret
      exact ht
    | none =>
      have ht : Counted (update (update g a (some f)) a none) t := hret
      rwa [update_idem] at ht
  simp only at hr
  split at hr
  · next r s1 hm =>
    cases hr
    obtain ⟨hret, hlog⟩ := tryMounts_asked S h1 hself hm
    exact ⟨hdone hret, fun x hx => (hlog x).trans (hopened x hx)⟩
  · next s1 hm =>
    obtain ⟨h2, hlog⟩ := tryMounts_asked S h1 hself hm
    obtain ⟨hret, hlog'⟩ := retryMount_returned S h2 hself hr
    exact ⟨hdone hret, fun x hx => (hlog' x).trans ((hlog x).trans (hopened x hx))⟩

end Open

end Crius.Fs
