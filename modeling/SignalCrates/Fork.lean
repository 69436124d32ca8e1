import SignalCrates.LockCall

/-!
# Processes that fork

A process is a program over a memory of its own. A fork copies the memory and the frames
of the forking thread into a new process, whose only thread gets an identifier that no
thread of any process has. Objects that a process and its copy both have open stay the
same object: every step of one process is seen by the others there.
-/
namespace SignalCrates.Fork
open TransitionSystem InterruptStack LockCall

/-- What a fork does to frames and memory. -/
structure Forking (S F : Type*) where
  forks : F → Bool
  copy : S → S
  share : S → S → S

abbrev World (ι S F : Type*) := List (State ι S F)

inductive Event (ι A : Type*)
  | step (p : ℕ) (l : Label ι A)
  | fork (p : ℕ) (t u : ι)

variable {ι S F A R : Type*}

def fresh (w : World ι S F) (u : ι) : Bool := w.all fun s => (s.stack u).isEmpty

/-- Identifiers of threads are unique over all processes. -/
def admits (w : World ι S F) : Label ι A → Bool
  | .spawn u => fresh w u
  | _ => true

/-- The stack of thread `t` of process `p`. -/
def stackOf (w : World ι S F) (p : ℕ) (t : ι) : List F := (w[p]?.map fun s => s.stack t).getD []

def sharing (K : Forking S F) (g : S) (s : State ι S F) : State ι S F :=
  ⟨K.share g s.shared, s.stack⟩

def update (K : Forking S F) (w : World ι S F) (p : ℕ) (s : State ι S F) : World ι S F :=
  (w.map (sharing K s.shared)).set p s

variable [DecidableEq ι]

/-- The copy of a process whose thread has the frames `fs`, with `u` for that thread. -/
def child (K : Forking S F) (s : State ι S F) (u : ι) (fs : List F) : State ι S F :=
  ⟨K.copy s.shared, Function.update (fun _ => []) u fs⟩

def next (P : Program ι S F A) (K : Forking S F) (w : World ι S F) :
    Event ι A → Option (World ι S F)
  | .step p l =>
    if admits w l then
      w[p]?.bind fun s => (InterruptStack.next P s l).map (update K w p)
    else none
  | .fork p t u =>
    w[p]?.bind fun s =>
      match s.stack t with
      | [] => none
      | f :: fs =>
        if K.forks f ∧ P.starts u ∧ fresh w u then some (w ++ [child K s u (f :: fs)]) else none

/-- All that a step can do. -/
inductive Moves (P : Program ι S F A) (K : Forking S F) (w : World ι S F) :
    Event ι A → World ι S F → Prop
  | step {p : ℕ} {l : Label ι A} {s s' : State ι S F} (hp : w[p]? = some s)
      (hl : admits w l = true) (h : InterruptStack.next P s l = some s') :
      Moves P K w (.step p l) (update K w p s')
  | fork {p : ℕ} {t u : ι} {s : State ι S F} {f : F} {fs : List F} (hp : w[p]? = some s)
      (hs : s.stack t = f :: fs) (hf : K.forks f = true) (hu : P.starts u = true)
      (hfresh : fresh w u = true) :
      Moves P K w (.fork p t u) (w ++ [child K s u (f :: fs)])

theorem next_cases {P : Program ι S F A} {K : Forking S F} {w w' : World ι S F}
    {e : Event ι A} (h : next P K w e = some w') : Moves P K w e w' := by
  cases e with
  | step p l =>
    simp only [next, Option.ite_none_right_eq_some, Option.bind_eq_some_iff,
      Option.map_eq_some_iff] at h
    obtain ⟨hl, s, hp, s', hn, rfl⟩ := h
    exact .step hp hl hn
  | fork p t u =>
    simp only [next, Option.bind_eq_some_iff] at h
    obtain ⟨s, hp, h⟩ := h
    cases hs : s.stack t with
    | nil => simp [hs] at h
    | cons f fs =>
      simp only [hs, Option.ite_none_right_eq_some, Option.some.injEq] at h
      obtain ⟨⟨hf, hu, hfresh⟩, rfl⟩ := h
      exact .fork hp hs hf hu hfresh

@[simp] theorem child_stack_self (K : Forking S F) (s : State ι S F) (u : ι) (fs : List F) :
    (child K s u fs).stack u = fs := by
  simp [child]

theorem child_stack_ne (K : Forking S F) (s : State ι S F) {u v : ι} (fs : List F)
    (h : v ≠ u) : (child K s u fs).stack v = [] := by
  simp [child, h]

omit [DecidableEq ι] in
theorem getElem?_update_self (K : Forking S F) {w : World ι S F} {p : ℕ} {s : State ι S F}
    (s' : State ι S F) (h : w[p]? = some s) : (update K w p s')[p]? = some s' := by
  have hp := (List.getElem?_eq_some_iff.mp h).1
  simp [update, hp]

omit [DecidableEq ι] in
theorem getElem?_update_ne (K : Forking S F) (w : World ι S F) {p q : ℕ} (s' : State ι S F)
    (h : q ≠ p) : (update K w p s')[q]? = w[q]?.map (sharing K s'.shared) := by
  simp [update, h.symm]

omit [DecidableEq ι] in
theorem mem_update {K : Forking S F} {w : World ι S F} {p : ℕ} {s s' : State ι S F}
    (h : s ∈ update K w p s') :
    s = s' ∨ ∃ q s₀, q ≠ p ∧ w[q]? = some s₀ ∧ s = sharing K s'.shared s₀ := by
  obtain ⟨q, hq⟩ := List.mem_iff_getElem?.mp h
  by_cases hqp : q = p
  · subst hqp
    obtain ⟨hlen, he⟩ := List.getElem?_eq_some_iff.mp hq
    exact .inl (by simpa [update] using he.symm)
  · rw [getElem?_update_ne K w s' hqp] at hq
    obtain ⟨s₀, hs₀, rfl⟩ := Option.map_eq_some_iff.mp hq
    exact .inr ⟨q, s₀, hqp, hs₀, rfl⟩

/-- A predicate of single processes is an invariant of all of them when a step of its own
process keeps it, a step of another process does, and a copy has it too. -/
theorem forall_next {P : Program ι S F A} {K : Forking S F} {I : State ι S F → Prop}
    {w w' : World ι S F} {e : Event ι A} (h : next P K w e = some w') (hI : ∀ s ∈ w, I s)
    (hstep : ∀ p l s s', e = .step p l → w[p]? = some s → InterruptStack.next P s l = some s' →
      I s → I s')
    (hshare : ∀ p q l s s' s₀, e = .step p l → w[p]? = some s →
      InterruptStack.next P s l = some s' → q ≠ p → w[q]? = some s₀ → I s₀ →
      I (sharing K s'.shared s₀))
    (hchild : ∀ p t u s f fs, e = .fork p t u → w[p]? = some s → s.stack t = f :: fs →
      K.forks f = true → P.starts u = true → I s → I (child K s u (f :: fs))) :
    ∀ s ∈ w', I s := by
  cases next_cases h with
  | step hp hl hn =>
    intro s hs
    rcases mem_update hs with rfl | ⟨q, s₀, hqp, hq, rfl⟩
    · exact hstep _ _ _ _ rfl hp hn (hI _ (List.mem_of_getElem? hp))
    · exact hshare _ q _ _ _ s₀ rfl hp hn hqp hq (hI _ (List.mem_of_getElem? hq))
  | fork hp hs hf hu _ =>
    intro s' hs'
    rcases List.mem_append.mp hs' with hs' | hs'
    · exact hI _ hs'
    · rw [List.mem_singleton.mp hs']
      exact hchild _ _ _ _ _ _ rfl hp hs hf hu (hI _ (List.mem_of_getElem? hp))

/-- All processes see the same in what they share. -/
theorem agree_next {β : Type*} {P : Program ι S F A} {K : Forking S F} {φ : S → β}
    (hshare : ∀ g g', φ (K.share g g') = φ g) (hcopy : ∀ g, φ (K.copy g) = φ g)
    {w w' : World ι S F} {e : Event ι A} (h : next P K w e = some w')
    (hw : ∀ s ∈ w, ∀ s₀ ∈ w, φ s.shared = φ s₀.shared) :
    ∀ s ∈ w', ∀ s₀ ∈ w', φ s.shared = φ s₀.shared := by
  suffices hall : ∃ b, ∀ s ∈ w', φ s.shared = b by
    obtain ⟨b, hb⟩ := hall
    exact fun s hs s₀ hs₀ => (hb s hs).trans (hb s₀ hs₀).symm
  cases next_cases h with
  | @step p l s s' hp hl hn =>
    refine ⟨φ s'.shared, fun s₁ hs₁ => ?_⟩
    rcases mem_update hs₁ with rfl | ⟨q, s₀, -, -, rfl⟩
    · rfl
    · exact hshare s'.shared s₀.shared
  | @fork p t u s f fs hp hs hf hu hfresh =>
    have hmem := List.mem_of_getElem? hp
    refine ⟨φ s.shared, fun s₁ hs₁ => ?_⟩
    rcases List.mem_append.mp hs₁ with hs₁ | hs₁
    · exact hw s₁ hs₁ s hmem
    · rw [List.mem_singleton.mp hs₁]
      exact hcopy s.shared

theorem mass_child [Finite ι] (w : F → ℕ) (K : Forking S F) (s : State ι S F) (u : ι)
    (fs : List F) : mass w (child K s u fs) = (fs.map w).sum := by
  have hrest : ∀ v, v ≠ u → (((child K s u fs).stack v).map w).sum = 0 := by
    intro v hv
    rw [child_stack_ne K s fs hv]
    rfl
  unfold mass
  rw [finsum_eq_single _ u hrest, child_stack_self]

/-- A copy carries no more than its thread did. -/
theorem mass_child_le [Finite ι] (w : F → ℕ) (K : Forking S F) {s : State ι S F} {t : ι}
    (u : ι) {fs : List F} (hs : s.stack t = fs) : mass w (child K s u fs) ≤ mass w s := by
  rw [mass_child, ← hs]
  exact le_mass w s t

omit [DecidableEq ι] in
theorem stackOf_eq {w : World ι S F} {p : ℕ} {s : State ι S F} (h : w[p]? = some s) (t : ι) :
    stackOf w p t = s.stack t := by
  simp [stackOf, h]

omit [DecidableEq ι] in
theorem exists_process {w : World ι S F} {p : ℕ} {t : ι} (h : stackOf w p t ≠ []) :
    ∃ s, w[p]? = some s := by
  cases hp : w[p]? with
  | none => exact absurd (by simp [stackOf, hp]) h
  | some s => exact ⟨s, rfl⟩

/-- A step is one of the process itself, or leaves its stacks alone. -/
theorem process_next {P : Program ι S F A} {K : Forking S F} {w w' : World ι S F}
    {e : Event ι A} (h : next P K w e = some w') {p : ℕ} {s : State ι S F}
    (hp : w[p]? = some s) :
    ∃ s', w'[p]? = some s' ∧ (s'.stack = s.stack ∨
      ∃ l, e = .step p l ∧ InterruptStack.next P s l = some s') := by
  cases next_cases h with
  | @step q l s₀ s' hq hl hn =>
    by_cases hpq : p = q
    · subst hpq
      obtain rfl := Option.some.inj (hp.symm.trans hq)
      exact ⟨s', getElem?_update_self K s' hp, .inr ⟨l, rfl, hn⟩⟩
    · refine ⟨sharing K s'.shared s, ?_, .inl rfl⟩
      rw [getElem?_update_ne K w s' hpq, hp]
      rfl
  | fork hq hs hf hu _ =>
    refine ⟨s, ?_, .inl rfl⟩
    rw [List.getElem?_append_left (List.getElem?_eq_some_iff.mp hp).1, hp]

/-- A thread that no step of a run names keeps its stack in every process that there was. -/
theorem run_stackOf {P : Program ι S F A} {K : Forking S F} {initial : World ι S F → Prop}
    {es : List (Event ι A)} {w w' : World ι S F} {p : ℕ} {s : State ι S F} {u : ι}
    (hp : w[p]? = some s) (hu : ∀ l, .step p l ∈ es → u ≠ l.thread)
    (h : run ⟨initial, next P K⟩ w es = some w') : stackOf w' p u = s.stack u := by
  induction es generalizing w s with
  | nil =>
    obtain rfl : w = w' := by simpa [run] using h
    exact stackOf_eq hp u
  | cons e es ih =>
    obtain ⟨w₁, hw, hr⟩ := Option.bind_eq_some_iff.mp h
    obtain ⟨s₁, hp₁, hs₁⟩ := process_next hw hp
    rw [ih hp₁ (fun l hl => hu l (List.mem_cons_of_mem _ hl)) hr]
    rcases hs₁ with hs₁ | ⟨l, rfl, hn⟩
    · rw [hs₁]
    · exact next_stack_of_ne hn (hu l List.mem_cons_self)

/-- A frame that can neither return nor hand out stays where it is in its stack, and only
its own actions, interruptions and guards handed out to it change it. -/
theorem frame_kept {P : Program ι S F A} {s s' : State ι S F} {l : Label ι A} {t : ι}
    {above below : List F} {f : F} (h : InterruptStack.next P s l = some s')
    (hs : s.stack t = above ++ f :: below) (hret : P.returns f = false)
    (hout : ∀ f₀, P.handOut f f₀ = none) :
    ∃ above' f', s'.stack t = above' ++ f' :: below ∧
      (f' = f ∨ f' = (P.deliver t s.shared f).2 ∨ (∃ g g', P.handOut g f = some (g', f')) ∨
        ∃ a, above = [] ∧ above' = [] ∧ l = .act t a ∧
          P.act t a s.shared f = some (s'.shared, f')) := by
  obtain ⟨u, fs, m', fs', hu, hm, rfl⟩ := InterruptStack.next_cases h
  by_cases htu : t = u
  swap
  · exact ⟨above, f, by rwa [State.put_stack_ne _ _ _ htu], .inl rfl⟩
  subst htu
  rw [hs] at hu
  rw [State.put_stack_self]
  cases above with
  | nil =>
    cases hm with
    | spawn _ => simp at hu
    | signal =>
      obtain ⟨rfl, rfl⟩ := List.cons.inj hu
      exact ⟨[P.entry], _, rfl, .inr (.inl rfl)⟩
    | act ha =>
      obtain ⟨rfl, rfl⟩ := List.cons.inj hu
      exact ⟨[], _, rfl, .inr (.inr (.inr ⟨_, rfl, rfl, rfl, ha⟩))⟩
    | finish hf =>
      obtain ⟨rfl, rfl⟩ := List.cons.inj hu
      simp [hret] at hf
    | handOut hh =>
      obtain ⟨rfl, rfl⟩ := List.cons.inj hu
      simp [hout] at hh
  | cons g above =>
    cases hm with
    | spawn _ => simp at hu
    | signal =>
      obtain ⟨rfl, rfl⟩ := List.cons.inj hu
      exact ⟨P.entry :: _ :: above, f, rfl, .inl rfl⟩
    | @act _ _ _ _ g' _ ha =>
      obtain ⟨rfl, rfl⟩ := List.cons.inj hu
      exact ⟨g' :: above, f, rfl, .inl rfl⟩
    | finish hf =>
      obtain ⟨rfl, rfl⟩ := List.cons.inj hu
      exact ⟨above, f, rfl, .inl rfl⟩
    | @handOut _ _ g₀ g' g₀' _ hh =>
      obtain ⟨rfl, hrest⟩ := List.cons.inj hu
      cases above with
      | nil =>
        obtain ⟨rfl, rfl⟩ := List.cons.inj hrest
        exact ⟨[g'], g₀', rfl, .inr (.inr (.inl ⟨_, _, hh⟩))⟩
      | cons g₁ above =>
        obtain ⟨rfl, rfl⟩ := List.cons.inj hrest
        exact ⟨g' :: g₀' :: above, f, rfl, .inl rfl⟩

/-- The frame of thread `t` of process `p` above `below` is inside one call. -/
inductive During (P : Program ι S F A) (K : Forking S F) (phase : F → Phase) (p : ℕ) (t : ι)
    (below : List F) (w : World ι S F) : World ι S F → Prop
  | start {f : F} (hs : stackOf w p t = f :: below) (hf : phase f = .starting) :
      During P K phase p t below w w
  | step {w₁ w₂ : World ι S F} {e : Event ι A} {above : List F} {f : F}
      (prior : During P K phase p t below w w₁) (taken : next P K w₁ e = some w₂)
      (hs : stackOf w₂ p t = above ++ f :: below) (hf : phase f ≠ .outside) :
      During P K phase p t below w w₂

/-- What holds of the frame when the call starts, and is kept by all that can happen to
the frame, holds throughout the call. -/
theorem During.keeps {P : Program ι S F A} {K : Forking S F} {phase : F → Phase}
    {initial : World ι S F → Prop} {I : State ι S F → Prop} {G : F → Prop} {p : ℕ} {t : ι}
    {below : List F} {w w₁ : World ι S F}
    (hin : ∀ f, phase f ≠ .outside → P.returns f = false ∧ ∀ f₀, P.handOut f f₀ = none)
    (hI : ∀ w, Reach ⟨initial, next P K⟩ anyStep w → ∀ s ∈ w, I s)
    (hdeliver : ∀ g f, G f → G (P.deliver t g f).2)
    (hout : ∀ f g g' f', P.handOut g f = some (g', f') → G f → G f')
    (hact : ∀ s a g' f f', I s → s.stack t = f :: below → phase f' ≠ .outside → G f →
      P.act t a s.shared f = some (g', f') → G f')
    (hr : Reach ⟨initial, next P K⟩ anyStep w)
    (hstart : ∀ f, stackOf w p t = f :: below → G f) (h : During P K phase p t below w w₁) :
    Reach ⟨initial, next P K⟩ anyStep w₁ ∧
      ∃ above f, stackOf w₁ p t = above ++ f :: below ∧ phase f ≠ .outside ∧ G f := by
  induction h with
  | @start f hs hf => exact ⟨hr, [], f, hs, by simp [hf], hstart f hs⟩
  | @step w₁ w₂ e above₂ f₂ prior taken hs₂ hf₂ ih =>
    obtain ⟨hr₁, above, f, hs, hf, hG⟩ := ih
    refine ⟨.step hr₁ trivial taken, above₂, f₂, hs₂, hf₂, ?_⟩
    obtain ⟨s, hp⟩ := exists_process (w := w₁) (p := p) (t := t) (by simp [hs])
    rw [stackOf_eq hp] at hs
    obtain ⟨s', hp', hn⟩ := process_next taken hp
    rw [stackOf_eq hp'] at hs₂
    rcases hn with hsame | ⟨l, rfl, hn⟩
    · rw [hsame, hs] at hs₂
      rwa [← frame_unique _ _ hs₂]
    · obtain ⟨above', f', hs', hcases⟩ := frame_kept hn hs (hin f hf).1 (hin f hf).2
      rw [hs'] at hs₂
      obtain rfl := frame_unique _ _ hs₂
      rcases hcases with rfl | rfl | ⟨g, g', hh⟩ | ⟨a, rfl, -, -, ha⟩
      · exact hG
      · exact hdeliver _ _ hG
      · exact hout _ _ _ _ hh hG
      · exact hact s a _ f f' (hI w₁ hr₁ s (List.mem_of_getElem? hp)) hs hf₂ hG ha

end SignalCrates.Fork
