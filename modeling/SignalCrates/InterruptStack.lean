import SignalCrates.TransitionSystem

/-!
# Threads whose frames are interrupted by signal handlers

A thread is a stack of frames, innermost first, and an empty stack is an identifier
that no live thread uses. Only the innermost frame runs. A signal puts a fresh frame
on top at any moment; the frame below resumes when the handler has returned.
-/
namespace SignalCrates.InterruptStack
open TransitionSystem

/-- The code that every frame runs, over shared memory `S`, with actions `A`. -/
structure Program (ι S F A : Type*) where
  entry : F
  starts : ι → Bool
  act : ι → A → S → F → Option (S × F)
  deliver : ι → S → F → S × F
  returns : F → Bool
  handOut : F → F → Option (F × F)

structure State (ι S F : Type*) where
  shared : S
  stack : ι → List F

inductive Label (ι A : Type*)
  | spawn (t : ι)
  | signal (t : ι)
  | act (t : ι) (a : A)
  | finish (t : ι)
  | handOut (t : ι)

def Label.thread {ι A : Type*} : Label ι A → ι
  | .spawn t => t
  | .signal t => t
  | .act t _ => t
  | .finish t => t
  | .handOut t => t

def Label.isSpawn {ι A : Type*} : Label ι A → Bool
  | .spawn _ => true
  | _ => false

def Label.isSignal {ι A : Type*} : Label ι A → Bool
  | .signal _ => true
  | _ => false

def Label.isFinish {ι A : Type*} : Label ι A → Bool
  | .finish _ => true
  | _ => false

def Label.isHandOut {ι A : Type*} : Label ι A → Bool
  | .handOut _ => true
  | _ => false

def Label.isAct {ι A : Type*} (p : A → Bool) : Label ι A → Bool
  | .act _ a => p a
  | _ => false

/-- Each kind of label that a workload consists of is at most all of it. -/
theorem countP_le_workload {ι A : Type*} (p : A → Bool) (ls : List (Label ι A)) :
    let workload (l : Label ι A) := l.isSpawn || l.isSignal || l.isHandOut || l.isAct p
    ls.countP Label.isSpawn ≤ ls.countP workload ∧
      ls.countP Label.isSignal ≤ ls.countP workload ∧
      ls.countP Label.isHandOut ≤ ls.countP workload ∧
      ls.countP (Label.isAct p) ≤ ls.countP workload := by
  intro workload
  have hcount (q : Label ι A → Bool) (hq : ∀ l, q l = true → workload l = true) :
      ls.countP q ≤ ls.countP workload := List.countP_mono_left fun l _ => hq l
  refine ⟨hcount _ ?_, hcount _ ?_, hcount _ ?_, hcount _ ?_⟩ <;> intro l hl <;>
    simp [workload, hl]

variable {ι S F A R : Type*} [DecidableEq ι]

def State.put (s : State ι S F) (t : ι) (g : S) (fs : List F) : State ι S F :=
  ⟨g, Function.update s.stack t fs⟩

@[simp] theorem State.put_shared (s : State ι S F) (t : ι) (g : S) (fs : List F) :
    (s.put t g fs).shared = g := rfl

@[simp] theorem State.put_stack_self (s : State ι S F) (t : ι) (g : S) (fs : List F) :
    (s.put t g fs).stack t = fs := Function.update_self _ _ _

@[simp] theorem State.put_stack_ne (s : State ι S F) {t u : ι} (g : S) (fs : List F)
    (h : u ≠ t) : (s.put t g fs).stack u = s.stack u := Function.update_of_ne h _ _

@[simp] theorem State.put_put (s : State ι S F) (t : ι) (g g' : S) (fs fs' : List F) :
    (s.put t g fs).put t g' fs' = s.put t g' fs' := by
  simp only [State.put, Function.update_idem]

theorem State.put_comm (s : State ι S F) {t u : ι} (g g' : S) (fs fs' : List F) (h : t ≠ u) :
    (s.put t g fs).put u g' fs' = (s.put u g fs').put t g' fs := by
  simp only [State.put, Function.update_comm h]

def next (P : Program ι S F A) (s : State ι S F) : Label ι A → Option (State ι S F)
  | .spawn t =>
    match s.stack t with
    | [] => if P.starts t then some (s.put t s.shared [P.entry]) else none
    | _ :: _ => none
  | .signal t =>
    match s.stack t with
    | [] => none
    | f :: fs =>
      some (s.put t (P.deliver t s.shared f).1 (P.entry :: (P.deliver t s.shared f).2 :: fs))
  | .act t a =>
    match s.stack t with
    | [] => none
    | f :: fs => (P.act t a s.shared f).map fun r => s.put t r.1 (r.2 :: fs)
  | .finish t =>
    match s.stack t with
    | [] => none
    | f :: fs => if P.returns f then some (s.put t s.shared fs) else none
  | .handOut t =>
    match s.stack t with
    | f :: f₀ :: fs => (P.handOut f f₀).map fun r => s.put t s.shared (r.1 :: r.2 :: fs)
    | _ => none

/-- A cost of the actions of the frame that runs. -/
def onAct {ι S F A : Type*} (c : S → F → A → ℕ) (s : State ι S F) : Label ι A → ℕ
  | .act t a =>
    match s.stack t with
    | [] => 0
    | f :: _ => c s.shared f a
  | _ => 0

/-- A cost of the signals that reach a frame. -/
def onSignal {ι S F A : Type*} (c : F → ℕ) (s : State ι S F) : Label ι A → ℕ
  | .signal t =>
    match s.stack t with
    | [] => 0
    | f :: _ => c f
  | _ => 0

theorem onSignal_zero {ι S F A : Type*} (s : State ι S F) (l : Label ι A) :
    onSignal (fun _ => 0) s l = 0 := by
  cases l <;> simp only [onSignal]
  split <;> rfl

/-- All that a step can do to the memory and to the stack of its own thread. -/
inductive Move (P : Program ι S F A) (t : ι) : Label ι A → S → List F → S → List F → Prop
  | spawn {g : S} (h : P.starts t = true) : Move P t (.spawn t) g [] g [P.entry]
  | signal {g : S} {f : F} {fs : List F} :
      Move P t (.signal t) g (f :: fs) (P.deliver t g f).1
        (P.entry :: (P.deliver t g f).2 :: fs)
  | act {a : A} {g g' : S} {f f' : F} {fs : List F} (h : P.act t a g f = some (g', f')) :
      Move P t (.act t a) g (f :: fs) g' (f' :: fs)
  | finish {g : S} {f : F} {fs : List F} (h : P.returns f = true) :
      Move P t (.finish t) g (f :: fs) g fs
  | handOut {g : S} {f f₀ f' f₀' : F} {fs : List F} (h : P.handOut f f₀ = some (f', f₀')) :
      Move P t (.handOut t) g (f :: f₀ :: fs) g (f' :: f₀' :: fs)

/-- A step moves one thread and leaves the stacks of all others as they are. -/
theorem next_cases {P : Program ι S F A} {s s' : State ι S F} {l : Label ι A}
    (h : next P s l = some s') :
    ∃ t fs g' fs', s.stack t = fs ∧ Move P t l s.shared fs g' fs' ∧ s' = s.put t g' fs' := by
  cases l with
  | spawn t =>
    cases hs : s.stack t with
    | nil =>
      simp only [next, hs, Option.ite_none_right_eq_some, Option.some.injEq] at h
      exact ⟨t, [], _, _, hs, .spawn h.1, h.2.symm⟩
    | cons f fs => simp [next, hs] at h
  | signal t =>
    cases hs : s.stack t with
    | nil => simp [next, hs] at h
    | cons f fs =>
      simp only [next, hs, Option.some.injEq] at h
      exact ⟨t, f :: fs, _, _, hs, .signal, h.symm⟩
  | act t a =>
    cases hs : s.stack t with
    | nil => simp [next, hs] at h
    | cons f fs =>
      simp only [next, hs, Option.map_eq_some_iff] at h
      obtain ⟨⟨g', f'⟩, ha, rfl⟩ := h
      exact ⟨t, f :: fs, g', f' :: fs, hs, .act ha, rfl⟩
  | finish t =>
    cases hs : s.stack t with
    | nil => simp [next, hs] at h
    | cons f fs =>
      simp only [next, hs, Option.ite_none_right_eq_some, Option.some.injEq] at h
      exact ⟨t, f :: fs, _, fs, hs, .finish h.1, h.2.symm⟩
  | handOut t =>
    match hs : s.stack t with
    | [] => simp [next, hs] at h
    | [f] => simp [next, hs] at h
    | f :: f₀ :: fs =>
      simp only [next, hs, Option.map_eq_some_iff] at h
      obtain ⟨⟨f', f₀'⟩, hh, rfl⟩ := h
      exact ⟨t, f :: f₀ :: fs, _, f' :: f₀' :: fs, hs, .handOut hh, rfl⟩

/-- A step changes the memory only by an action or by the delivery of a signal. -/
theorem shared_next {P : Program ι S F A} {s s' : State ι S F} {l : Label ι A}
    (h : next P s l = some s') (hl : ∀ t a, l ≠ .act t a) :
    s'.shared = s.shared ∨ ∃ t f, s'.shared = (P.deliver t s.shared f).1 := by
  obtain ⟨t, fs, g', fs', -, hm, rfl⟩ := next_cases h
  cases hm with
  | spawn _ => exact .inl rfl
  | signal => exact .inr ⟨t, _, rfl⟩
  | act _ => exact absurd rfl (hl t _)
  | finish _ => exact .inl rfl
  | handOut _ => exact .inl rfl

/-- Only identifiers that threads may have are in use. -/
theorem starts_next {P : Program ι S F A} {s s' : State ι S F} {l : Label ι A}
    (h : next P s l = some s') (hs : ∀ t, s.stack t ≠ [] → P.starts t = true) :
    ∀ t, s'.stack t ≠ [] → P.starts t = true := by
  obtain ⟨t, fs, g', fs', he, hm, rfl⟩ := next_cases h
  intro u hu
  by_cases hut : u = t
  · subst hut
    cases hm with
    | spawn hst => exact hst
    | signal => exact hs u (by simp [he])
    | act _ => exact hs u (by simp [he])
    | finish _ => exact hs u (by simp [he])
    | handOut _ => exact hs u (by simp [he])
  · rw [State.put_stack_ne _ _ _ hut] at hu
    exact hs u hu

theorem next_act {P : Program ι S F A} {s : State ι S F} {t : ι} {a : A} {f : F} {fs : List F}
    (hs : s.stack t = f :: fs) :
    next P s (.act t a) = (P.act t a s.shared f).map fun r => s.put t r.1 (r.2 :: fs) := by
  simp [next, hs]

theorem act_put {P : Program ι S F A} {initial : State ι S F → Prop} {s : State ι S F}
    {t : ι} {g g' : S} {f f' : F} {fs : List F}
    (h : Reach ⟨initial, next P⟩ anyStep (s.put t g (f :: fs))) (a : A)
    (ha : P.act t a g f = some (g', f')) :
    Reach ⟨initial, next P⟩ anyStep (s.put t g' (f' :: fs)) := by
  refine .step h (a := .act t a) trivial ?_
  change next P (s.put t g (f :: fs)) (.act t a) = _
  rw [next_act (s.put_stack_self t g _), State.put_shared, ha, Option.map_some, State.put_put]

theorem signal_put {P : Program ι S F A} {initial : State ι S F → Prop} {s : State ι S F}
    {t : ι} {g : S} {f : F} {fs : List F}
    (h : Reach ⟨initial, next P⟩ anyStep (s.put t g (f :: fs))) (hd : P.deliver t g f = (g, f)) :
    Reach ⟨initial, next P⟩ anyStep (s.put t g (P.entry :: f :: fs)) := by
  refine .step h (a := .signal t) trivial ?_
  simp only [next, State.put_stack_self, State.put_shared, hd, State.put_put]

theorem next_stack_of_ne {P : Program ι S F A} {s s' : State ι S F} {l : Label ι A} {u : ι}
    (h : next P s l = some s') (hu : u ≠ l.thread) : s'.stack u = s.stack u := by
  obtain ⟨t, fs, g', fs', -, hm, rfl⟩ := next_cases h
  have ht : l.thread = t := by cases hm <;> rfl
  exact State.put_stack_ne _ _ _ (ht ▸ hu)

/-- A thread that no label of a run names keeps its stack. -/
theorem run_stack_of_not_mem {P : Program ι S F A} {init : State ι S F → Prop} {u : ι}
    {ls : List (Label ι A)} {s s' : State ι S F} (hu : u ∉ ls.map Label.thread)
    (h : run ⟨init, next P⟩ s ls = some s') : s'.stack u = s.stack u := by
  induction ls generalizing s with
  | nil =>
    obtain rfl : s = s' := by simpa [run] using h
    rfl
  | cons l ls ih =>
    obtain ⟨s₁, hs, hr⟩ := Option.bind_eq_some_iff.mp h
    simp only [List.map_cons, List.mem_cons, not_or] at hu
    rw [ih hu.2 hr]
    exact next_stack_of_ne hs hu.1

/-- A frame with a property is still there after a step of `t` that keeps one on `t`. -/
theorem exists_frame {Q Q' : F → Prop} {s s' : State ι S F} {t : ι}
    (hrest : ∀ u, u ≠ t → s'.stack u = s.stack u) (hQ : ∀ f, Q f → Q' f)
    (ht : (∃ f ∈ s.stack t, Q f) → ∃ f ∈ s'.stack t, Q' f)
    (h : ∃ u, ∃ f ∈ s.stack u, Q f) : ∃ u, ∃ f ∈ s'.stack u, Q' f := by
  obtain ⟨u, f, hf, hq⟩ := h
  by_cases hut : u = t
  · subst hut
    exact ⟨u, ht ⟨f, hf, hq⟩⟩
  · exact ⟨u, f, by rwa [hrest u hut], hQ f hq⟩

section Layers

/-- Every frame of a stack satisfies `Q` with respect to the frames below it. -/
def Layered (Q : F → List F → Prop) : List F → Prop
  | [] => True
  | f :: fs => Q f fs ∧ Layered Q fs

theorem Layered.append {Q : F → List F → Prop} {above fs : List F}
    (h : Layered Q (above ++ fs)) : Layered Q fs := by
  induction above with
  | nil => exact h
  | cons f above ih => exact ih h.2

theorem Layered.at {Q : F → List F → Prop} {above below : List F} {f : F}
    (h : Layered Q (above ++ f :: below)) : Q f below := h.append.1

theorem Layered.mem {Q : F → Prop} {fs : List F} (h : Layered (fun f _ => Q f) fs) :
    ∀ f ∈ fs, Q f := by
  intro f hf
  obtain ⟨above, below, rfl⟩ := List.append_of_mem hf
  exact h.at

theorem layered_of_forall {Q : F → Prop} {fs : List F} (h : ∀ f ∈ fs, Q f) :
    Layered (fun f _ => Q f) fs := by
  induction fs with
  | nil => trivial
  | cons f fs ih =>
    exact ⟨h f List.mem_cons_self, ih fun g hg => h g (List.mem_cons_of_mem _ hg)⟩

/-- A layered predicate is an invariant when the frame that runs keeps it. -/
theorem layered_next {P : Program ι S F A} {Q : ι → F → List F → Prop} {s s' : State ι S F}
    {l : Label ι A} (h : next P s l = some s') (hQ : ∀ t, Layered (Q t) (s.stack t))
    (hentry : ∀ t fs, Q t P.entry fs)
    (hdeliver : ∀ t f fs, Q t f fs → Q t (P.deliver t s.shared f).2 fs)
    (hact : ∀ t a f fs g' f', l = .act t a → s.stack t = f :: fs →
      P.act t a s.shared f = some (g', f') → Q t f fs → Q t f' fs)
    (hout : ∀ t f f₀ fs f' f₀', l = .handOut t → P.handOut f f₀ = some (f', f₀') →
      Q t f (f₀ :: fs) → Q t f₀ fs → Q t f' (f₀' :: fs) ∧ Q t f₀' fs) :
    ∀ t, Layered (Q t) (s'.stack t) := by
  obtain ⟨t, fs, g', fs', hs, hm, rfl⟩ := next_cases h
  intro u
  by_cases hu : u = t
  · subst u
    have ht := hQ t
    rw [hs] at ht
    rw [State.put_stack_self]
    cases hm with
    | spawn _ => exact ⟨hentry t [], trivial⟩
    | signal => exact ⟨hentry t _, hdeliver t _ _ ht.1, ht.2⟩
    | act ha => exact ⟨hact t _ _ _ _ _ rfl hs ha ht.1, ht.2⟩
    | finish _ => exact ht.2
    | handOut hh =>
      obtain ⟨hq, hq₀⟩ := hout t _ _ _ _ _ rfl hh ht.1 ht.2.1
      exact ⟨hq, hq₀, ht.2.2⟩
  · rw [State.put_stack_ne _ _ _ hu]
    exact hQ u

/-- In runs from states without frames, what the frame that runs keeps holds of all frames. -/
theorem layered_of_reach {P : Program ι S F A} {initial : State ι S F → Prop}
    {ok : State ι S F → Label ι A → Prop} {Q : ι → F → List F → Prop} {s : State ι S F}
    (h : Reach ⟨initial, next P⟩ ok s) (hinit : ∀ s, initial s → ∀ t, s.stack t = [])
    (hentry : ∀ t fs, Q t P.entry fs)
    (hdeliver : ∀ g t f fs, Q t f fs → Q t (P.deliver t g f).2 fs)
    (hact : ∀ s t a f fs g' f', Reach ⟨initial, next P⟩ ok s → s.stack t = f :: fs →
      P.act t a s.shared f = some (g', f') → Q t f fs → Q t f' fs)
    (hout : ∀ s t f f₀ fs f' f₀', ok s (.handOut t) → P.handOut f f₀ = some (f', f₀') →
      Q t f (f₀ :: fs) → Q t f₀ fs → Q t f' (f₀' :: fs) ∧ Q t f₀' fs) (t : ι) :
    Layered (Q t) (s.stack t) := by
  refine h.invariant (I := fun s => ∀ t, Layered (Q t) (s.stack t)) ?_ ?_ t
  · intro s hs t
    rw [hinit s hs t]
    trivial
  · intro s l s' hr hI hok hn
    refine layered_next hn hI hentry (hdeliver s.shared) ?_ ?_
    · exact fun t a f fs g' f' _ => hact s t a f fs g' f' hr
    · rintro t f f₀ fs f' f₀' rfl
      exact hout s t f f₀ fs f' f₀' hok

end Layers

section Weights

/-- The weights of the frames of all threads together. -/
noncomputable def mass (w : F → ℕ) (s : State ι S F) : ℕ := ∑ᶠ t, ((s.stack t).map w).sum

omit [DecidableEq ι] in
theorem mass_empty {w : F → ℕ} {s : State ι S F} (h : ∀ t, s.stack t = []) : mass w s = 0 := by
  unfold mass
  simp [h]

omit [DecidableEq ι] in
theorem le_mass [Finite ι] (w : F → ℕ) (s : State ι S F) (t : ι) :
    ((s.stack t).map w).sum ≤ mass w s := by
  have := Fintype.ofFinite ι
  unfold mass
  rw [finsum_eq_sum_of_fintype]
  exact Finset.single_le_sum (f := fun u => ((s.stack u).map w).sum) (fun _ _ => Nat.zero_le _)
    (Finset.mem_univ t)

omit [DecidableEq ι] in
theorem mass_eq_zero_iff [Finite ι] {w : F → ℕ} {s : State ι S F} :
    mass w s = 0 ↔ ∀ t, ∀ f ∈ s.stack t, w f = 0 := by
  constructor
  · intro h t f hf
    have hle := le_mass w s t
    have hf := List.single_le_sum (by simp) (w f) (List.mem_map_of_mem hf)
    omega
  · intro h
    refine finsum_eq_zero_of_forall_eq_zero fun t => List.sum_eq_zero fun n hn => ?_
    obtain ⟨f, hf, rfl⟩ := List.mem_map.mp hn
    exact h t f hf

omit [DecidableEq ι] in
theorem mass_mono [Finite ι] {w w' : F → ℕ} (h : ∀ f, w f ≤ w' f) (s : State ι S F) :
    mass w s ≤ mass w' s := by
  have := Fintype.ofFinite ι
  unfold mass
  rw [finsum_eq_sum_of_fintype, finsum_eq_sum_of_fintype]
  exact Finset.sum_le_sum fun t _ => List.sum_le_sum fun f _ => h f

omit [DecidableEq ι] in
/-- Threads of which each carries some weight are no more than the weight. -/
theorem card_le_mass [Finite ι] {w : F → ℕ} {s : State ι S F} {q : Finset ι}
    (h : ∀ t ∈ q, 1 ≤ ((s.stack t).map w).sum) : q.card ≤ mass w s := by
  have := Fintype.ofFinite ι
  unfold mass
  rw [finsum_eq_sum_of_fintype, Finset.card_eq_sum_ones]
  exact (Finset.sum_le_sum h).trans (Finset.sum_le_univ_sum_of_nonneg fun _ => Nat.zero_le _)

/-- A step of one thread changes the weight by what it changes on that thread. -/
theorem mass_put [Finite ι] (w : F → ℕ) {s : State ι S F} {t : ι} {fs : List F} (g : S)
    (hs : s.stack t = fs) (fs' : List F) :
    mass w (s.put t g fs') + (fs.map w).sum = mass w s + (fs'.map w).sum := by
  have := Fintype.ofFinite ι
  have hrest : ∑ u ∈ Finset.univ.erase t, (((s.put t g fs').stack u).map w).sum =
      ∑ u ∈ Finset.univ.erase t, ((s.stack u).map w).sum := by
    refine Finset.sum_congr rfl fun u hu => ?_
    rw [State.put_stack_ne _ _ _ (Finset.ne_of_mem_erase hu)]
  unfold mass
  rw [finsum_eq_sum_of_fintype, finsum_eq_sum_of_fintype,
    ← Finset.add_sum_erase _ _ (Finset.mem_univ t), hrest,
    ← Finset.add_sum_erase _ (fun u => ((s.stack u).map w).sum) (Finset.mem_univ t),
    State.put_stack_self, hs]
  omega

theorem mass_put_cons [Finite ι] (w : F → ℕ) {s : State ι S F} {t : ι} {f : F} (f' : F)
    {fs : List F} (g : S) (hs : s.stack t = f :: fs) :
    mass w (s.put t g (f' :: fs)) + w f = mass w s + w f' := by
  have h := mass_put w g hs (f' :: fs)
  simp only [List.map_cons, List.sum_cons] at h
  omega

/-- What frames weigh when they start, are interrupted, return and hand out. -/
structure Weighs (P : Program ι S F A) (w : F → ℕ) (idle : ℕ) (extra : F → ℕ) : Prop where
  entry : w P.entry = idle
  deliver : ∀ t g f, w (P.deliver t g f).2 ≤ w f + extra f
  returns : ∀ f, P.returns f = true → w f = idle
  handOut : ∀ f f₀ f' f₀', P.handOut f f₀ = some (f', f₀') → w f' + w f₀' = w f + w f₀

/-- A step that is not an action adds weight only by a new frame or an interruption. -/
theorem Weighs.mass_next [Finite ι] {P : Program ι S F A} {w : F → ℕ} {idle : ℕ}
    {extra : F → ℕ} (hw : Weighs P w idle extra) {s s' : State ι S F} {l : Label ι A}
    (h : next P s l = some s') (hl : ∀ t a, l ≠ .act t a) :
    mass w s' + idle * l.isFinish.toNat ≤
      mass w s + idle * (l.isSpawn.toNat + l.isSignal.toNat) + onSignal extra s l := by
  obtain ⟨t, fs, g', fs', hs, hm, rfl⟩ := next_cases h
  have hput := mass_put w g' hs fs'
  cases hm with
  | spawn _ =>
    simp only [List.map_cons, List.map_nil, List.sum_cons, List.sum_nil, hw.entry] at hput
    simp only [Label.isFinish, Label.isSpawn, Label.isSignal, Bool.toNat_true,
      Bool.toNat_false]
    omega
  | @signal _ f fs =>
    have hd := hw.deliver t s.shared f
    have hextra : onSignal extra s (.signal t : Label ι A) = extra f := by simp [onSignal, hs]
    simp only [List.map_cons, List.sum_cons, hw.entry] at hput
    simp only [Label.isFinish, Label.isSpawn, Label.isSignal, Bool.toNat_true,
      Bool.toNat_false, hextra]
    omega
  | act _ => exact absurd rfl (hl t _)
  | finish hf =>
    simp only [List.map_cons, List.sum_cons, hw.returns _ hf] at hput
    simp only [Label.isFinish, Label.isSpawn, Label.isSignal, Bool.toNat_true,
      Bool.toNat_false]
    omega
  | handOut hh =>
    have hout := hw.handOut _ _ _ _ hh
    simp only [List.map_cons, List.sum_cons] at hput
    simp only [Label.isFinish, Label.isSpawn, Label.isSignal, Bool.toNat_false]
    omega

end Weights

section Resources

/-- What the frames of a thread hold together. -/
def live (held : F → List R) (s : State ι S F) (t : ι) : List R := (s.stack t).flatMap held

theorem live_put_self (held : F → List R) (s : State ι S F) (t : ι) (g : S) (fs : List F) :
    live held (s.put t g fs) t = fs.flatMap held := by
  simp [live]

theorem live_put_ne (held : F → List R) (s : State ι S F) {t u : ι} (g : S) (fs : List F)
    (h : u ≠ t) : live held (s.put t g fs) u = live held s u := by
  simp [live, h]

/-- An action that keeps what its frame holds keeps what every thread holds. -/
theorem live_put_eq {held : F → List R} {s : State ι S F} {t : ι} {f f' : F} {fs : List F}
    (g : S) (hs : s.stack t = f :: fs) (hf : held f' = held f) (u : ι) :
    live held (s.put t g (f' :: fs)) u = live held s u := by
  by_cases hu : u = t
  · subst hu
    rw [live_put_self, live, hs, List.flatMap_cons, List.flatMap_cons, hf]
  · exact live_put_ne held s g _ hu

theorem mem_flatMap_head {held : F → List R} {r : R} {f f' : F} {fs : List F}
    (h : held f' = held f) (hr : r ∈ (f :: fs).flatMap held) : r ∈ (f' :: fs).flatMap held := by
  rwa [List.flatMap_cons, h, ← List.flatMap_cons]

/-- Frames start and end without resources, and handing them out only moves them. -/
structure Conserves (P : Program ι S F A) (held : F → List R) : Prop where
  entry : held P.entry = []
  deliver : ∀ t g f, held (P.deliver t g f).2 = held f
  returns : ∀ f, P.returns f = true → held f = []
  handOut : ∀ f f₀ f' f₀', P.handOut f f₀ = some (f', f₀') →
    held f' ++ held f₀' = held f ++ held f₀

/-- Only a frame's own action can change what its thread holds. -/
theorem Conserves.live_next {P : Program ι S F A} {held : F → List R} (hP : Conserves P held)
    {s s' : State ι S F} {l : Label ι A} (h : next P s l = some s') :
    ((∀ t, live held s' t = live held s t) ∧ ∀ t a, l ≠ .act t a) ∨
      ∃ t a f fs g' f', l = .act t a ∧ s.stack t = f :: fs ∧
        P.act t a s.shared f = some (g', f') ∧ s' = s.put t g' (f' :: fs) := by
  obtain ⟨t, fs, g', fs', hs, hm, rfl⟩ := next_cases h
  have hsame : fs'.flatMap held = fs.flatMap held →
      ∀ u, live held (s.put t g' fs') u = live held s u := by
    intro he u
    by_cases hu : u = t
    · subst u
      rw [live_put_self, he, live, hs]
    · exact live_put_ne held s g' fs' hu
  cases hm with
  | spawn _ => exact .inl ⟨hsame (by simp [hP.entry]), by rintro t a ⟨⟩⟩
  | signal => exact .inl ⟨hsame (by simp [hP.entry, hP.deliver]), by rintro t a ⟨⟩⟩
  | act ha => exact .inr ⟨t, _, _, _, _, _, rfl, hs, ha, rfl⟩
  | finish hf => exact .inl ⟨hsame (by simp [hP.returns _ hf]), by rintro t a ⟨⟩⟩
  | handOut hh =>
    refine .inl ⟨hsame ?_, by rintro t a ⟨⟩⟩
    simp only [List.flatMap_cons, ← List.append_assoc, hP.handOut _ _ _ _ hh]

/-- `o` is the only resource held, together with the thread that holds it. -/
def Sole (live : ι → List R) : Option (ι × R) → Prop
  | none => ∀ t, live t = []
  | some (u, r) => live u = [r] ∧ ∀ t, t ≠ u → live t = []

omit [DecidableEq ι] in
theorem Sole.congr {L L' : ι → List R} {o : Option (ι × R)} (h : Sole L o)
    (he : ∀ t, L' t = L t) : Sole L' o := by
  cases o with
  | none => intro t; rw [he t]; exact h t
  | some p => exact ⟨(he p.1).trans h.1, fun t ht => (he t).trans (h.2 t ht)⟩

theorem Sole.of_cons {L : ι → List R} {o : Option (ι × R)} (h : Sole L o) {t : ι} {r : R}
    {rs : List R} (ht : L t = r :: rs) : o = some (t, r) ∧ rs = [] := by
  cases o with
  | none => simp [h t] at ht
  | some p =>
    obtain ⟨u, r'⟩ := p
    by_cases hu : t = u
    · subst hu
      have := ht.symm.trans h.1
      simp_all
    · simp [h.2 t hu] at ht

theorem Sole.of_mem {L : ι → List R} {o : Option (ι × R)} (h : Sole L o) {t : ι} {r : R}
    (hr : r ∈ L t) : o = some (t, r) := by
  obtain ⟨r', rs, ht⟩ := List.exists_cons_of_ne_nil (List.ne_nil_of_mem hr)
  obtain ⟨rfl, rfl⟩ := h.of_cons ht
  rw [ht, List.mem_singleton] at hr
  rw [hr]

/-- At most one resource is held over all frames of all threads. -/
theorem Sole.at_most_one {L : ι → List R} {o : Option (ι × R)} (h : Sole L o) :
    (∀ t, (L t).length ≤ 1) ∧ ∀ t u, L t ≠ [] → L u ≠ [] → t = u := by
  constructor
  · intro t
    cases ht : L t with
    | nil => simp
    | cons r rs => simp [(h.of_cons ht).2]
  · intro t u ht hu
    obtain ⟨r, rs, hr⟩ := List.exists_cons_of_ne_nil ht
    obtain ⟨r', rs', hr'⟩ := List.exists_cons_of_ne_nil hu
    have he := (h.of_cons hr).1.symm.trans (h.of_cons hr').1
    simpa using congrArg (Option.map Prod.fst) he

/-- Taking the resource when nobody holds it. -/
theorem Sole.take {held : F → List R} {s : State ι S F} (h : Sole (live held s) none)
    {t : ι} {g' : S} {f f' : F} {fs : List F} {r : R} (hs : s.stack t = f :: fs)
    (hf : held f' = r :: held f) : Sole (live held (s.put t g' (f' :: fs))) (some (t, r)) := by
  have ht : (f :: fs).flatMap held = [] := by
    have := h t
    rwa [live, hs] at this
  rw [List.flatMap_cons] at ht
  refine ⟨?_, fun u hu => (live_put_ne held s g' _ hu).trans (h u)⟩
  rw [live_put_self, List.flatMap_cons, hf, List.cons_append, ht]

/-- A frame that holds a resource is the only one that does. -/
theorem Sole.of_frame {held : F → List R} {s : State ι S F} {o : Option (ι × R)}
    (h : Sole (live held s) o) {t : ι} {f : F} {fs : List F} {r : R} {rs : List R}
    (hs : s.stack t = f :: fs) (hf : held f = r :: rs) :
    o = some (t, r) ∧ rs = [] ∧ fs.flatMap held = [] := by
  have ht : live held s t = r :: (rs ++ fs.flatMap held) := by
    rw [live, hs, List.flatMap_cons, hf, List.cons_append]
  have := h.of_cons ht
  simpa using this

/-- The holder changes the resource it holds. -/
theorem Sole.change {held : F → List R} {s : State ι S F} {o : Option (ι × R)}
    (h : Sole (live held s) o) {t : ι} {g' : S} {f f' : F} {fs : List F} {r r' : R}
    {rs : List R} (hs : s.stack t = f :: fs) (hf : held f = r :: rs) (hf' : held f' = r' :: rs) :
    Sole (live held (s.put t g' (f' :: fs))) (some (t, r')) := by
  obtain ⟨rfl, rfl, hfs⟩ := h.of_frame hs hf
  refine ⟨?_, fun u hu => (live_put_ne held s g' _ hu).trans (h.2 u hu)⟩
  rw [live_put_self, List.flatMap_cons, hf', hfs]
  rfl

/-- The holder gives the resource up. -/
theorem Sole.drop {held : F → List R} {s : State ι S F} {o : Option (ι × R)}
    (h : Sole (live held s) o) {t : ι} {g' : S} {f f' : F} {fs : List F} {r : R}
    {rs : List R} (hs : s.stack t = f :: fs) (hf : held f = r :: rs) (hf' : held f' = rs) :
    Sole (live held (s.put t g' (f' :: fs))) none := by
  obtain ⟨rfl, rfl, hfs⟩ := h.of_frame hs hf
  intro u
  by_cases hu : u = t
  · subst hu
    rw [live_put_self, List.flatMap_cons, hf', hfs]
    rfl
  · exact (live_put_ne held s g' _ hu).trans (h.2 u hu)

/-- How many resources the frames of all threads hold together. -/
noncomputable def total (held : F → List R) (s : State ι S F) : ℕ :=
  ∑ᶠ t, (live held s t).length

omit [DecidableEq ι] in
theorem total_eq_mass (held : F → List R) (s : State ι S F) :
    total held s = mass (fun f => (held f).length) s := by
  unfold total mass live
  simp only [List.length_flatMap]

omit [DecidableEq ι] in
theorem length_le_total [Finite ι] (held : F → List R) (s : State ι S F) (t : ι) :
    (live held s t).length ≤ total held s := by
  rw [total_eq_mass, live, List.length_flatMap]
  exact le_mass _ s t

omit [DecidableEq ι] in
theorem total_congr {held : F → List R} {s s' : State ι S F}
    (h : ∀ t, live held s' t = live held s t) : total held s' = total held s :=
  finsum_congr fun t => by rw [h t]

theorem total_put [Finite ι] {held : F → List R} {s : State ι S F} {t : ι} {f f' : F}
    {fs : List F} (g : S) (hs : s.stack t = f :: fs) :
    total held (s.put t g (f' :: fs)) + (held f).length =
      total held s + (held f').length := by
  rw [total_eq_mass, total_eq_mass]
  exact mass_put_cons (fun f => (held f).length) f' g hs

end Resources

end SignalCrates.InterruptStack
