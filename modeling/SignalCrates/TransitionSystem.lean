import Mathlib

/-!
# Labelled transition systems

A step is a partial function of the state and a label, so every source of
nondeterminism is named by the label and a finite run can be evaluated.
Reachability takes a side condition on the steps of a run; the invariant and
simulation rules are stated for it.
-/
namespace SignalCrates.TransitionSystem

structure System (σ α : Type*) where
  initial : σ → Prop
  next : σ → α → Option σ

variable {σ α τ β : Type*}

/-- States of runs all of whose steps satisfy `ok`, read in the state before the step. -/
inductive Reach (M : System σ α) (ok : σ → α → Prop) : σ → Prop
  | initial {s : σ} (h : M.initial s) : Reach M ok s
  | step {s s' : σ} {a : α} (prior : Reach M ok s) (allowed : ok s a)
      (taken : M.next s a = some s') : Reach M ok s'

/-- The side condition that allows every step. -/
def anyStep : σ → α → Prop := fun _ _ => True

/-- Evaluate a list of labels. -/
def run (M : System σ α) (s : σ) : List α → Option σ
  | [] => some s
  | a :: as => (M.next s a).bind fun s' => run M s' as

theorem Reach.mono {M : System σ α} {ok ok' : σ → α → Prop} {s : σ}
    (hok : ∀ s a, ok s a → ok' s a) (h : Reach M ok s) : Reach M ok' s := by
  induction h with
  | initial h => exact .initial h
  | step _ ha ht ih => exact .step ih (hok _ _ ha) ht

/-- A predicate that holds initially and is kept by every allowed step holds in
every state reached. -/
theorem Reach.invariant {M : System σ α} {ok : σ → α → Prop} {I : σ → Prop} {s : σ}
    (h : Reach M ok s) (hinit : ∀ s, M.initial s → I s)
    (hstep : ∀ s a s', Reach M ok s → I s → ok s a → M.next s a = some s' → I s') : I s := by
  induction h with
  | initial h => exact hinit _ h
  | step hr ha ht ih => exact hstep _ _ _ hr ih ha ht

/-- Forward simulation with stuttering: each allowed step of `M` is matched by an
allowed step of `N`, or by none. -/
theorem Reach.simulation {M : System σ α} {N : System τ β} {ok : σ → α → Prop}
    {ok' : τ → β → Prop} {R : σ → τ → Prop} {s : σ} (h : Reach M ok s)
    (hinit : ∀ s, M.initial s → ∃ t, N.initial t ∧ R s t)
    (hstep : ∀ s a s' t, Reach M ok s → R s t → ok s a → M.next s a = some s' →
      R s' t ∨ ∃ b t', ok' t b ∧ N.next t b = some t' ∧ R s' t') :
    ∃ t, Reach N ok' t ∧ R s t := by
  induction h with
  | initial h =>
    obtain ⟨t, ht, hR⟩ := hinit _ h
    exact ⟨t, .initial ht, hR⟩
  | step hr ha hs ih =>
    obtain ⟨t, ht, hR⟩ := ih
    rcases hstep _ _ _ _ hr hR ha hs with hR' | ⟨b, t', hb, hn, hR'⟩
    · exact ⟨t, ht, hR'⟩
    · exact ⟨t', .step ht hb hn, hR'⟩

/-- An evaluated run whose steps are all allowed extends reachability. -/
theorem Reach.run {M : System σ α} {ok : σ → α → Prop} {s s' : σ} {as : List α}
    (h : Reach M ok s) (hok : ∀ s a, a ∈ as → ok s a) (hr : run M s as = some s') :
    Reach M ok s' := by
  induction as generalizing s with
  | nil =>
    obtain rfl : s = s' := by simpa [TransitionSystem.run] using hr
    exact h
  | cons a as ih =>
    obtain ⟨s₁, hs, hr⟩ := Option.bind_eq_some_iff.mp hr
    exact ih (.step h (hok _ _ (by simp)) hs) (fun s b hb => hok s b (by simp [hb])) hr

theorem run_append (M : System σ α) (s : σ) (as bs : List α) :
    run M s (as ++ bs) =
      (run M s as).bind fun s' => run M s' bs := by
  induction as generalizing s with
  | nil => rfl
  | cons a as ih =>
    simp only [List.cons_append, run, Option.bind_assoc, ih]

/-- Runs that are extended by steps which are always allowed. -/
theorem reach_append {M : System σ α} {ok : σ → α → Prop} {s : σ} {as : List α}
    (h : ∀ s', run M s as = some s' → Reach M ok s') (bs : List α)
    (hok : ∀ s a, a ∈ bs → ok s a) :
    ∀ s', run M s (as ++ bs) = some s' → Reach M ok s' := by
  intro s' hr
  rw [run_append] at hr
  obtain ⟨s₁, hs₁, hr⟩ := Option.bind_eq_some_iff.mp hr
  exact (h s₁ hs₁).run hok hr

/-- Runs that are extended by a step which is allowed in the state it is taken in. -/
theorem reach_snoc {M : System σ α} {ok : σ → α → Prop} {s : σ} {as : List α}
    (h : ∀ s', run M s as = some s' → Reach M ok s') (a : α)
    (hok : ∀ s', run M s as = some s' → ok s' a) :
    ∀ s', run M s (as ++ [a]) = some s' → Reach M ok s' := by
  intro s' hr
  rw [run_append] at hr
  obtain ⟨s₁, hs₁, hr⟩ := Option.bind_eq_some_iff.mp hr
  obtain ⟨s₂, hs₂, hr⟩ := Option.bind_eq_some_iff.mp hr
  obtain rfl : s₂ = s' := by simpa [run] using hr
  exact .step (h s₁ hs₁) (hok s₁ hs₁) hs₂

end SignalCrates.TransitionSystem
