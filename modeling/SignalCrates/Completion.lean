import SignalCrates.TransitionSystem

/-!
# Runs that come to an end

A system completes from a state when the steps that are allowed there can only be taken
boundedly often, in any order, and run out in a final state and nowhere else.
-/
namespace SignalCrates.Completion
open TransitionSystem

variable {σ α : Type*}

/-- No allowed step is enabled. -/
def Stuck (M : System σ α) (ok : α → Bool) (s : σ) : Prop :=
  ∀ a, ok a = true → M.next s a = none

/-- Allowed steps lead from `s` to `s'`. -/
def Continues (M : System σ α) (ok : α → Bool) (s : σ) (as : List α) (s' : σ) : Prop :=
  (∀ a ∈ as, ok a = true) ∧ run M s as = some s'

/-- An allowed step from `s` leads to `s'`. -/
def StepFrom (M : System σ α) (ok : α → Bool) (s' s : σ) : Prop :=
  ∃ a, ok a = true ∧ M.next s a = some s'

/-- Every choice of allowed steps ends, and it ends in the final states. -/
structure Completes (M : System σ α) (ok : α → Bool) (final : σ → Prop) (s : σ) : Prop where
  bounded : ∃ n, ∀ as s', Continues M ok s as s' → as.length ≤ n
  stuck_iff : ∀ as s', Continues M ok s as s' → (Stuck M ok s' ↔ final s')
  finishes : ∃ as s', Continues M ok s as s' ∧ final s'

variable {M : System σ α} {ok : α → Bool} {final : σ → Prop}

/-- Continuations of bounded length can be taken until nothing is enabled. -/
theorem exists_stuck {n : ℕ} {s : σ} (h : ∀ as s', Continues M ok s as s' → as.length ≤ n) :
    ∃ as s', Continues M ok s as s' ∧ Stuck M ok s' := by
  induction n generalizing s with
  | zero =>
    refine ⟨[], s, ⟨by simp, rfl⟩, fun a ha => ?_⟩
    by_contra hne
    obtain ⟨s₁, hs⟩ := Option.ne_none_iff_exists'.mp hne
    have hle := h [a] s₁ ⟨by simpa using ha, by simp [run, hs]⟩
    simp at hle
  | succ n ih =>
    by_cases hstuck : Stuck M ok s
    · exact ⟨[], s, ⟨by simp, rfl⟩, hstuck⟩
    · simp only [Stuck, not_forall] at hstuck
      obtain ⟨a, ha, hne⟩ := hstuck
      obtain ⟨s₁, hs⟩ := Option.ne_none_iff_exists'.mp hne
      have hcons {as : List α} {s' : σ} (hc : Continues M ok s₁ as s') :
          Continues M ok s (a :: as) s' := by
        refine ⟨fun b hb => ?_, by simp [run, hs, hc.2]⟩
        rcases List.mem_cons.mp hb with rfl | hb
        · exact ha
        · exact hc.1 b hb
      obtain ⟨as, s', hc, hstuck⟩ := ih fun as s' hc => by
        have hle := h _ _ (hcons hc)
        rw [List.length_cons] at hle
        omega
      exact ⟨a :: as, s', hcons hc, hstuck⟩

/-- A measure that every allowed step decreases bounds the continuations. -/
theorem length_le_measure {I : σ → Prop} {μ : σ → ℤ}
    (hstep : ∀ s a s', I s → ok a = true → M.next s a = some s' → I s' ∧ μ s' + 1 ≤ μ s)
    {s s' : σ} {as : List α} (hI : I s) (h : Continues M ok s as s') :
    I s' ∧ μ s' + as.length ≤ μ s := by
  obtain ⟨hok, hr⟩ := h
  induction as generalizing s with
  | nil =>
    obtain rfl : s = s' := by simpa [run] using hr
    exact ⟨hI, by simp⟩
  | cons a as ih =>
    obtain ⟨s₁, hs, hr⟩ := Option.bind_eq_some_iff.mp hr
    obtain ⟨hI₁, hle⟩ := hstep s a s₁ hI (hok a List.mem_cons_self) hs
    obtain ⟨hI', hrest⟩ := ih hI₁ (fun b hb => hok b (List.mem_cons_of_mem _ hb)) hr
    refine ⟨hI', ?_⟩
    rw [List.length_cons]
    push_cast
    omega

/-- With such a measure no run of allowed steps is endless. -/
theorem acc_of_measure {I : σ → Prop} {μ : σ → ℤ}
    (hstep : ∀ s a s', I s → ok a = true → M.next s a = some s' → I s' ∧ μ s' + 1 ≤ μ s)
    (hpos : ∀ s, I s → 0 ≤ μ s) {s : σ} (hI : I s) : Acc (StepFrom M ok) s := by
  obtain ⟨n, hn⟩ : ∃ n : ℕ, (μ s).toNat ≤ n := ⟨_, le_refl _⟩
  induction n using Nat.strong_induction_on generalizing s with
  | _ n ih =>
    refine .intro s ?_
    rintro s' ⟨a, ha, hs⟩
    obtain ⟨hI', hle⟩ := hstep s a s' hI ha hs
    have := hpos s' hI'
    exact ih (μ s').toNat (by omega) hI' le_rfl

theorem completes {I : σ → Prop} {μ : σ → ℤ}
    (hstep : ∀ s a s', I s → ok a = true → M.next s a = some s' → I s' ∧ μ s' + 1 ≤ μ s)
    (hpos : ∀ s, I s → 0 ≤ μ s) (hstuck : ∀ s, I s → (Stuck M ok s ↔ final s))
    {s : σ} (hI : I s) : Completes M ok final s := by
  have hbound : ∀ as s', Continues M ok s as s' → as.length ≤ (μ s).toNat := by
    intro as s' h
    obtain ⟨hI', hle⟩ := length_le_measure hstep hI h
    have := hpos s' hI'
    omega
  have hiff : ∀ as s', Continues M ok s as s' → (Stuck M ok s' ↔ final s') :=
    fun as s' h => hstuck s' (length_le_measure hstep hI h).1
  obtain ⟨as, s', hc, hs⟩ := exists_stuck hbound
  exact ⟨⟨_, hbound⟩, hiff, as, s', hc, (hiff as s' hc).mp hs⟩

end SignalCrates.Completion
