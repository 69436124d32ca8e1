import SignalCrates.TransitionSystem

/-!
# Amortised bounds on runs

Every step of a run has a cost, and some steps bring an income. When the potential of
the state pays for what the income does not cover, a whole run costs no more than it
brings in. A run in which every step costs something is then finite.
-/
namespace SignalCrates.Potential
open TransitionSystem

variable {σ α : Type*}

/-- The sum of `c` over the steps of a run. -/
def charge (M : System σ α) (c : σ → α → ℕ) (s : σ) : List α → ℕ
  | [] => 0
  | a :: as =>
    match M.next s a with
    | none => 0
    | some s' => c s a + charge M c s' as

theorem charge_cons {M : System σ α} {c : σ → α → ℕ} {s s' : σ} {a : α} {as : List α}
    (h : M.next s a = some s') : charge M c s (a :: as) = c s a + charge M c s' as := by
  simp only [charge, h]

/-- A cost that the label alone decides is summed over the labels. -/
theorem charge_label {M : System σ α} {f : α → ℕ} {as : List α} {s s' : σ}
    (h : run M s as = some s') : charge M (fun _ a => f a) s as = (as.map f).sum := by
  induction as generalizing s with
  | nil => rfl
  | cons a as ih =>
    obtain ⟨s₁, hs, hr⟩ := Option.bind_eq_some_iff.mp h
    rw [charge_cons hs, ih hr, List.map_cons, List.sum_cons]

theorem countP_cons_toNat (p : α → Bool) (a : α) (as : List α) :
    (a :: as).countP p = as.countP p + (p a).toNat := by
  rw [List.countP_cons]
  cases p a <;> rfl

theorem charge_countP {M : System σ α} {p : α → Bool} {as : List α} {s s' : σ}
    (h : run M s as = some s') : charge M (fun _ a => (p a).toNat) s as = as.countP p := by
  rw [charge_label h]
  clear h
  induction as with
  | nil => rfl
  | cons a as ih =>
    rw [List.map_cons, List.sum_cons, ih, countP_cons_toNat, Nat.add_comm]

theorem charge_add (M : System σ α) (c d : σ → α → ℕ) (s : σ) (as : List α) :
    charge M (fun s a => c s a + d s a) s as = charge M c s as + charge M d s as := by
  induction as generalizing s with
  | nil => rfl
  | cons a as ih =>
    cases hs : M.next s a with
    | none => simp only [charge, hs]
    | some s' =>
      rw [charge_cons hs, charge_cons hs, charge_cons hs, ih]
      omega

theorem charge_mul (M : System σ α) (k : ℕ) (c : σ → α → ℕ) (s : σ) (as : List α) :
    charge M (fun s a => k * c s a) s as = k * charge M c s as := by
  induction as generalizing s with
  | nil => rfl
  | cons a as ih =>
    cases hs : M.next s a with
    | none => simp only [charge, hs, mul_zero]
    | some s' => rw [charge_cons hs, charge_cons hs, ih, mul_add]

/-- The accounts of a run balance when those of every step do. `I` is an invariant of
the state and of the labels still to come. -/
theorem balance {M : System σ α} {Φ : σ → ℤ} {cost income : σ → α → ℕ}
    {I : σ → List α → Prop}
    (hstep : ∀ s a s' as, I s (a :: as) → M.next s a = some s' →
      I s' as ∧ Φ s' + cost s a ≤ Φ s + income s a)
    {s s' : σ} {as : List α} (hI : I s as) (hr : run M s as = some s') :
    I s' [] ∧ Φ s' + charge M cost s as ≤ Φ s + charge M income s as := by
  induction as generalizing s with
  | nil =>
    obtain rfl : s = s' := by simpa [run] using hr
    exact ⟨hI, le_refl _⟩
  | cons a as ih =>
    obtain ⟨s₁, hs, hr⟩ := Option.bind_eq_some_iff.mp hr
    obtain ⟨hI₁, hle⟩ := hstep s a s₁ as hI hs
    obtain ⟨hI', hrest⟩ := ih hI₁ hr
    refine ⟨hI', ?_⟩
    rw [charge_cons hs, charge_cons hs]
    push_cast
    omega

/-- The first labels of an infinite sequence. -/
def upTo (l : ℕ → α) (n : ℕ) : List α := (List.range n).map l

/-- An infinite run from `s`. -/
def Endless (M : System σ α) (s : σ) (l : ℕ → α) : Prop := ∀ n, (run M s (upTo l n)).isSome

theorem countP_upTo_le {l : ℕ → α} {work : α → Bool} (h : {n | work (l n) = true}.Finite)
    (n : ℕ) : (upTo l n).countP work ≤ h.toFinset.card := by
  rw [upTo, List.countP_map, List.countP_eq_length_filter,
    ← List.toFinset_card_of_nodup (List.nodup_range.filter _)]
  refine Finset.card_le_card fun i hi => ?_
  simp only [List.mem_toFinset, List.mem_filter] at hi
  simpa using hi.2

/-- When the work in a run bounds its length, no infinite run has a finite amount of work. -/
theorem not_endless {M : System σ α} {s : σ} (work : α → Bool) (ok : List α → Prop)
    (bound : ℕ → ℕ) (hmono : Monotone bound)
    (hbound : ∀ as s', ok as → run M s as = some s' → as.length ≤ bound (as.countP work))
    {l : ℕ → α} (hok : ∀ n, ok (upTo l n)) (hwork : {n | work (l n) = true}.Finite) :
    ¬ Endless M s l := by
  intro h
  let n := bound hwork.toFinset.card + 1
  obtain ⟨s', hs⟩ := Option.isSome_iff_exists.mp (h n)
  have hlen := hbound _ s' (hok n) hs
  have hle := hmono (countP_upTo_le hwork n)
  simp only [upTo, List.length_map, List.length_range] at hlen hle
  omega

end SignalCrates.Potential
