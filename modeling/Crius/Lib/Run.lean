import Mathlib.Order.Basic

/-!
# Runs of a partial step function

A system is a step function on states that consumes one operation at a time. All
choices an environment can make are part of the operation, so a list of operations
determines the run. An operation that is not enabled, or that never returns, has no
successor state.
-/
namespace Crius.Lib.Run

open List Option

universe u v

variable {State : Type u} {Op : Type v} (step : State → Op → Option State)

/-- Execute a list of operations from the left. -/
def run : State → List Op → Option State
  | s, [] => some s
  | s, op :: ops => (step s op).bind fun s' => run s' ops

/-- Every operation of the run meets `cond` in the state in which it is executed. -/
def Along (cond : State → Op → Prop) : State → List Op → Prop
  | _, [] => True
  | s, op :: ops => cond s op ∧ ∀ s', step s op = some s' → Along cond s' ops

instance decidableAlong (cond : State → Op → Prop) [∀ s op, Decidable (cond s op)] :
    (s : State) → (ops : List Op) → Decidable (Along step cond s ops)
  | _, [] => isTrue trivial
  | s, op :: ops =>
    match h : step s op with
    | none => decidable_of_iff (cond s op) (by simp [Along, h])
    | some s' =>
      have := decidableAlong cond s' ops
      decidable_of_iff (cond s op ∧ Along step cond s' ops) (by simp [Along, h])

@[simp] theorem run_nil (s : State) : run step s [] = some s := rfl

theorem run_cons (s : State) (op : Op) (ops : List Op) :
    run step s (op :: ops) = (step s op).bind fun s' => run step s' ops := rfl

variable {s s' : State} {ops : List Op} {cond : State → Op → Prop}

theorem run_cons_some {s'' : State} {op : Op} (h : run step s (op :: ops) = some s'') :
    ∃ s', step s op = some s' ∧ run step s' ops = some s'' := by
  rw [run_cons] at h
  exact bind_eq_some_iff.mp h

theorem run_append (s : State) (first second : List Op) :
    run step s (first ++ second) = (run step s first).bind fun s' => run step s' second := by
  induction first generalizing s with
  | nil => rfl
  | cons op ops ih =>
    rw [cons_append, run_cons, run_cons, bind_assoc]
    exact congrArg _ (funext fun s' => ih s')

/-- A run of `n` operations, of which the one with number `k` leads from `Inv k` to
`Inv (k + 1)`. -/
theorem run_range (Inv : ℕ → State → Prop) (op : ℕ → Op) {n : ℕ}
    (hstep : ∀ k < n, ∀ s, Inv k s → ∃ s', step s (op k) = some s' ∧ Inv (k + 1) s') (h : Inv 0 s) :
    ∃ s', run step s ((range n).map op) = some s' ∧ Inv n s' := by
  induction n with
  | zero => exact ⟨s, rfl, h⟩
  | succ n ih =>
    obtain ⟨s1, hrun, h1⟩ := ih fun k hk => hstep k (Nat.lt_succ_of_lt hk)
    obtain ⟨s2, hs2, h2⟩ := hstep n (Nat.lt_succ_self n) s1 h1
    refine ⟨s2, ?_, h2⟩
    rw [range_succ, map_append, run_append, hrun, bind_some, map_singleton,
      run_cons, hs2, bind_some, run_nil]

theorem along_of_forall (h : ∀ s, ∀ op ∈ ops, cond s op) (s : State) : Along step cond s ops := by
  induction ops generalizing s with
  | nil => trivial
  | cons op ops ih =>
    refine ⟨h s op mem_cons_self, fun s' _ => ?_⟩
    exact ih (fun t op' hop => h t op' (mem_cons_of_mem op hop)) s'

/-- A property that is kept by the steps that meet `cond`. -/
theorem run_invariant_along {Inv : State → Prop}
    (keep : ∀ s op s', Inv s → cond s op → step s op = some s' → Inv s') (hs : Inv s)
    (hc : Along step cond s ops) (hr : run step s ops = some s') : Inv s' := by
  induction ops generalizing s with
  | nil =>
    cases hr
    exact hs
  | cons op ops ih =>
    obtain ⟨s1, h1, h2⟩ := run_cons_some step hr
    exact ih (keep s op s1 hs hc.1 h1) (hc.2 s1 h1) h2

/-- A property that every step keeps holds at the end of every run. -/
theorem run_invariant {Inv : State → Prop} (keep : ∀ s op s', Inv s → step s op = some s' → Inv s')
    (hs : Inv s) (hr : run step s ops = some s') : Inv s' :=
  run_invariant_along step (fun s op s' h _ => keep s op s' h) hs
    (along_of_forall step (fun _ _ _ => trivial) s) hr

/-- Two systems that run side by side, where the steps of the first meet `cond`. -/
theorem run_simulation {Spec : Type*} {spec : Spec → Op → Option Spec} {R : State → Spec → Prop}
    (keep : ∀ s t op s' t', R s t → cond s op → step s op = some s' → spec t op = some t' → R s' t')
    {t t' : Spec} (h : R s t) (hc : Along step cond s ops) (hs : run step s ops = some s')
    (ht : run spec t ops = some t') : R s' t' := by
  induction ops generalizing s t with
  | nil =>
    cases hs
    cases ht
    exact h
  | cons op ops ih =>
    obtain ⟨s1, hs1, hs⟩ := run_cons_some step hs
    obtain ⟨t1, ht1, ht⟩ := run_cons_some spec ht
    exact ih (keep s t op s1 t1 h hc.1 hs1 ht1) (hc.2 s1 hs1) hs ht

section Clean

/-! A step that adds an entry to a log, and a record that is clean if all entries are exact.
The entry is exact if and only if the step meets a condition. -/

variable {Entry : Type*} {log : State → List Entry} {Exact : Entry → Prop}
  {Inv Clean : State → Prop} {cond : State → Op → Prop}
  (clean : ∀ {s s' e}, log s' = log s ++ [e] → (Clean s' ↔ Clean s ∧ Exact e))
  (logged : ∀ {s op s'}, step s op = some s' → ∃ e, log s' = log s ++ [e])
  (good : ∀ {s op}, Inv s → cond s op →
    ∃ s' e, step s op = some s' ∧ Inv s' ∧ log s' = log s ++ [e] ∧ Exact e)
  (bad : ∀ {s op}, Inv s → ¬ cond s op →
    ∃ s' e, step s op = some s' ∧ log s' = log s ++ [e] ∧ ¬ Exact e)

include clean good in
/-- Steps that all meet the condition make a run with a clean record. -/
theorem run_clean {s : State} {ops : List Op} (hinv : Inv s) (hclean : Clean s)
    (hc : Along step cond s ops) : ∃ s', run step s ops = some s' ∧ Inv s' ∧ Clean s' ∧
      (log s').length = (log s).length + ops.length := by
  induction ops generalizing s with
  | nil => exact ⟨s, rfl, hinv, hclean, rfl⟩
  | cons op ops ih =>
    obtain ⟨s1, e, h1, hinv1, hlog, he⟩ := good hinv hc.1
    obtain ⟨s', hrun, hinv', hclean', hlen⟩ :=
      ih hinv1 ((clean hlog).mpr ⟨hclean, he⟩) (hc.2 s1 h1)
    refine ⟨s', ?_, hinv', hclean', ?_⟩
    · rw [run_cons, h1]
      exact hrun
    · rw [hlen, hlog, length_append, length_singleton, length_cons]
      omega

include clean logged good bad in
/-- A run with a clean record has only steps that meet the condition. -/
theorem along_of_clean {s s' : State} {ops : List Op} (hinv : Inv s)
    (hr : run step s ops = some s') (hclean' : Clean s') : Along step cond s ops := by
  induction ops generalizing s with
  | nil => trivial
  | cons op ops ih =>
    obtain ⟨s1, h1, h2⟩ := run_cons_some step hr
    have hclean1 : Clean s1 := by
      by_contra hn
      have hstays : ∀ t op' t', ¬ Clean t → step t op' = some t' → ¬ Clean t' := by
        intro t op' t' ht hstep hclean
        obtain ⟨e, hlog⟩ := logged hstep
        exact ht ((clean hlog).mp hclean).1
      exact run_invariant step hstays hn h2 hclean'
    have hop : cond s op := by
      by_contra hn
      obtain ⟨s2, e, h3, hlog, he⟩ := bad hinv hn
      cases h3.symm.trans h1
      exact he ((clean hlog).mp hclean1).2
    obtain ⟨s2, e, h3, hinv2, -⟩ := good hinv hop
    cases h3.symm.trans h1
    refine ⟨hop, fun s4 h4 => ?_⟩
    cases h1.symm.trans h4
    exact ih hinv2 h2

end Clean

end Crius.Lib.Run
