import SignalCrates.TransitionSystem

/-!
# Fair behaviors

A behavior is an infinite sequence of states that takes steps of the system or stutters.
Under weak fairness of the next-state relation it cannot stutter for ever while a step is
enabled, so it comes to a final state when no run is endless and nothing is stuck before.
-/
namespace SignalCrates.Fairness
open TransitionSystem

variable {σ α : Type*}

/-- The next-state relation. -/
def Next (M : System σ α) (s s' : σ) : Prop := ∃ a, M.next s a = some s'

/-- A step that is not a stuttering step. -/
def Changes (M : System σ α) (s s' : σ) : Prop := Next M s s' ∧ s' ≠ s

/-- `Init ∧ □[Next]_vars`. -/
structure Behavior (M : System σ α) (e : ℕ → σ) : Prop where
  initial : M.initial (e 0)
  next : ∀ n, Next M (e n) (e (n + 1)) ∨ e (n + 1) = e n

/-- `WF_vars(Next)`. -/
def WeaklyFair (M : System σ α) (e : ℕ → σ) : Prop :=
  ∀ n, (∀ m, n ≤ m → ∃ s', Changes M (e m) s') → ∃ m, n ≤ m ∧ Changes M (e m) (e (m + 1))

/-- No endless run starts in `s`. -/
def Terminates (M : System σ α) (s : σ) : Prop := Acc (fun s' s => Next M s s') s

variable {M : System σ α} {e : ℕ → σ}

theorem Behavior.reach (h : Behavior M e) (n : ℕ) : Reach M anyStep (e n) := by
  induction n with
  | zero => exact .initial h.initial
  | succ n ih =>
    rcases h.next n with ⟨a, ha⟩ | he
    · exact .step ih trivial ha
    · rw [he]
      exact ih

/-- A step out of a state where every run ends changes the state. -/
theorem Terminates.changes {s s' : σ} (h : Terminates M s) (hs : Next M s s') :
    Changes M s s' := by
  refine ⟨hs, ?_⟩
  intro he
  subst he
  induction h with
  | intro s _ ih => exact ih s hs hs

/-- A behavior either stutters for ever or comes to its next change. -/
theorem Behavior.stutters_or_changes (h : Behavior M e) (n : ℕ) :
    (∀ m, n ≤ m → e m = e n) ∨ ∃ m, n ≤ m ∧ e m = e n ∧ Changes M (e m) (e (m + 1)) := by
  by_contra hnot
  obtain ⟨hmove, hchange⟩ := not_or.mp hnot
  refine hmove fun m hm => ?_
  induction m, hm using Nat.le_induction with
  | base => rfl
  | succ m hm ih =>
    by_contra hne
    refine hchange ⟨m, hm, ih, ?_⟩
    rw [← ih] at hne
    exact ⟨(h.next m).resolve_right hne, hne⟩

theorem Behavior.eventually {Q : σ → Prop} (h : Behavior M e) (hfair : WeaklyFair M e)
    (hends : ∀ s, Reach M anyStep s → Terminates M s)
    (hstuck : ∀ s, Reach M anyStep s → (∀ a, M.next s a = none) → Q s) :
    ∃ n, Q (e n) := by
  have hfrom (s : σ) (hs : Terminates M s) : ∀ n, e n = s → ∃ n, Q (e n) := by
    induction hs with
    | intro s hacc ih =>
      rintro n rfl
      by_cases hnone : ∀ a, M.next (e n) a = none
      · exact ⟨n, hstuck _ (h.reach n) hnone⟩
      · simp only [not_forall] at hnone
        obtain ⟨a, ha⟩ := hnone
        obtain ⟨s', hs'⟩ := Option.ne_none_iff_exists'.mp ha
        have henabled : Changes M (e n) s' := Terminates.changes (.intro _ hacc) ⟨a, hs'⟩
        rcases h.stutters_or_changes n with hall | ⟨m, hm, hmn, hc⟩
        · -- weak fairness forbids to stutter while a step is enabled
          obtain ⟨m, hm, hc⟩ := hfair n fun m hm => ⟨s', by rw [hall m hm]; exact henabled⟩
          exact absurd ((hall (m + 1) (by omega)).trans (hall m hm).symm) hc.2
        · rw [hmn] at hc
          exact ih (e (m + 1)) hc.1 (m + 1) rfl
  exact hfrom (e 0) (hends _ (h.reach 0)) 0 rfl

/-- The states of a run, and then its last state for ever. -/
def states (M : System σ α) : List α → σ → ℕ → σ
  | [], s, _ => s
  | _ :: _, s, 0 => s
  | a :: as, s, n + 1 =>
    match M.next s a with
    | some s' => states M as s' n
    | none => s

theorem states_zero (as : List α) (s : σ) : states M as s 0 = s := by
  cases as <;> rfl

/-- A run to a state where nothing is enabled is a fair behavior. -/
theorem exists_behavior {as : List α} {s s' : σ} (hinit : M.initial s) (h : run M s as = some s')
    (hstuck : ∀ a, M.next s' a = none) : ∃ e, Behavior M e ∧ WeaklyFair M e ∧ e 0 = s := by
  have hsteps : (∀ n, Next M (states M as s n) (states M as s (n + 1)) ∨
      states M as s (n + 1) = states M as s n) ∧
      ∀ n, as.length ≤ n → states M as s n = s' := by
    clear hinit
    induction as generalizing s with
    | nil =>
      obtain rfl : s = s' := by simpa [run] using h
      exact ⟨fun n => .inr rfl, fun n _ => rfl⟩
    | cons a as ih =>
      obtain ⟨s₁, hs, hr⟩ := Option.bind_eq_some_iff.mp h
      obtain ⟨hnext, hlast⟩ := ih hr
      refine ⟨fun n => ?_, fun n hn => ?_⟩
      · cases n with
        | zero => exact .inl ⟨a, by simp [states, hs, states_zero]⟩
        | succ n => simpa [states, hs] using hnext n
      · cases n with
        | zero => simp at hn
        | succ n => simpa [states, hs] using hlast n (Nat.le_of_succ_le_succ hn)
  refine ⟨states M as s, ⟨?_, hsteps.1⟩, fun n hn => ?_, states_zero as s⟩
  · rw [states_zero]
    exact hinit
  · obtain ⟨s₁, ⟨a, ha⟩, -⟩ := hn (max n as.length) (le_max_left _ _)
    rw [hsteps.2 _ (le_max_right _ _), hstuck a] at ha
    simp at ha

end SignalCrates.Fairness
