import SignalCrates.InterruptStack

/-!
# Calls of a lock made on an interrupt stack

A call is followed from its first step to its return while handlers come and go above
it. Detection of reentrancy is exact: a call is refused exactly if the caller's thread
holds the resource at the start of the call.
-/
namespace SignalCrates.LockCall
open TransitionSystem InterruptStack

/-- Where a frame stands in a call of the lock; only `contended` contains blocking points. -/
inductive Phase
  | outside
  | starting
  | contended
  | givingUp
  | refused
  | granted
  deriving DecidableEq, Repr

variable {ι S F A R : Type*} [DecidableEq ι]

/-- The frame above `below` is inside one call from the first state to the second. -/
inductive During (P : Program ι S F A) (ok : State ι S F → Label ι A → Prop) (phase : F → Phase)
    (t : ι) (below : List F) (s : State ι S F) : State ι S F → Prop
  | start {f : F} (hs : s.stack t = f :: below) (hf : phase f = .starting) :
      During P ok phase t below s s
  | step {s₁ s₂ : State ι S F} {l : Label ι A} {above : List F} {f : F}
      (prior : During P ok phase t below s s₁) (allowed : ok s₁ l)
      (taken : InterruptStack.next P s₁ l = some s₂)
      (hs : s₂.stack t = above ++ f :: below) (hf : phase f ≠ .outside) :
      During P ok phase t below s s₂

/-- The call has begun, and only the place of its own frame has changed. -/
def Starts (held : F → List R) (phase : F → Phase) (t : ι) (f : F) (below : List F)
    (s s₀ : State ι S F) : Prop :=
  ∃ f₀, s₀ = s.put t s.shared (f₀ :: below) ∧ phase f₀ = .starting ∧ held f₀ = held f

/-- The call is about to be refused, or about to return the refusal: its own next step is
there to be taken, changes nothing that is shared, and leads from the one to the other. -/
def Refuses (P : Program ι S F A) (held : F → List R) (phase : F → Phase) (t : ι)
    (below : List F) (s : State ι S F) : Prop :=
  ∃ above g, s.stack t = above ++ g :: below ∧ (phase g = .starting ∨ phase g = .refused) ∧
    (above = [] → (∃ a s', InterruptStack.next P s (.act t a) = some s') ∧
      ∀ a s', InterruptStack.next P s (.act t a) = some s' → ∃ g',
        s' = s.put t s.shared (g' :: below) ∧ held g' = held g ∧
          phase g' = if phase g = .starting then .refused else .outside)

/-- The call is not refused, neither at its start nor in its loop. -/
def NotRefused (phase : F → Phase) (t : ι) (below : List F) (s : State ι S F) : Prop :=
  ∀ above g, s.stack t = above ++ g :: below → phase g ≠ .givingUp ∧ phase g ≠ .refused

/-- What one action may do to a call, given what the caller's thread holds. -/
def PhaseStep (held : F → List R) (phase : F → Phase) (mine : List R) (g g' : S) (f f' : F) :
    Prop :=
  match phase f with
  | .outside => phase f' = .outside ∨ phase f' = .starting ∧ held f' = held f
  | .starting =>
    (mine ≠ [] → phase f' = .refused ∧ held f' = held f ∧ g' = g) ∧
      (mine = [] → phase f' = .contended ∧ held f' = held f ∨ phase f' = .granted)
  | .contended => mine = [] → phase f' = .contended ∧ held f' = held f ∨ phase f' = .granted
  | .givingUp => True
  | .refused => phase f' = .outside ∧ held f' = held f ∧ g' = g
  | .granted => phase f' = .granted ∨ phase f' = .outside

/-- The conditions on one lock's code from which exactness follows. -/
structure CallCode (P : Program ι S F A) (initial : State ι S F → Prop)
    (ok : State ι S F → Label ι A → Prop) (held : F → List R) (phase : F → Phase) : Prop where
  conserves : Conserves P held
  noHandOut : ∀ s t, ¬ ok s (.handOut t)
  empty : ∀ s t, initial s → s.stack t = []
  entry : phase P.entry = .outside
  returns : ∀ f, P.returns f = true → phase f = .outside
  deliver : ∀ t g f, phase (P.deliver t g f).2 = phase f
  act : ∀ s t f below a g' f', Reach ⟨initial, InterruptStack.next P⟩ ok s →
    s.stack t = f :: below → P.act t a s.shared f = some (g', f') →
    PhaseStep held phase (live held s t) s.shared g' f f'
  enabled : ∀ t g f, phase f = .starting ∨ phase f = .refused → ∃ a r, P.act t a g f = some r

/-- The step into the lock's code takes and changes nothing. -/
def StartsAt (P : Program ι S F A) (held : F → List R) (phase : F → Phase) (lock : A) : Prop :=
  ∀ t g f g' f', P.act t lock g f = some (g', f') →
    phase f' = .starting ∧ held f' = held f ∧ g' = g

/-- A contended frame has no guard at or below it, a refused one has. -/
def Placed (held : F → List R) (phase : F → Phase) (f : F) (below : List F) : Prop :=
  (phase f = .contended → (f :: below).flatMap held = []) ∧ phase f ≠ .givingUp ∧
    (phase f = .refused → (f :: below).flatMap held ≠ [])

/-- A step after which the frame of the call is the innermost one. -/
theorem During.stepTop {P : Program ι S F A} {ok : State ι S F → Label ι A → Prop}
    {phase : F → Phase} {t : ι} {below : List F} {s s₁ s₂ : State ι S F} {l : Label ι A} {f : F}
    (h : During P ok phase t below s s₁) (hok : ok s₁ l)
    (hn : InterruptStack.next P s₁ l = some s₂) (hs : s₂.stack t = f :: below)
    (hf : phase f ≠ .outside) : During P ok phase t below s s₂ :=
  .step h hok hn (hs.trans (List.nil_append _).symm) hf

/-- A step after which one handler runs above the frame of the call. -/
theorem During.stepHandler {P : Program ι S F A} {ok : State ι S F → Label ι A → Prop}
    {phase : F → Phase} {t : ι} {below : List F} {s s₁ s₂ : State ι S F} {l : Label ι A}
    {f g : F} (h : During P ok phase t below s s₁) (hok : ok s₁ l)
    (hn : InterruptStack.next P s₁ l = some s₂) (hs : s₂.stack t = g :: f :: below)
    (hf : phase f ≠ .outside) : During P ok phase t below s s₂ :=
  .step h hok hn (hs.trans (List.singleton_append).symm) hf

/-- The frame above `below` is determined by the stack. -/
theorem frame_unique (above above' : List F) {below : List F} {g g' : F}
    (h : above ++ g :: below = above' ++ g' :: below) : g = g' := by
  have hlen := congrArg List.length h
  simp only [List.length_append, List.length_cons] at hlen
  obtain ⟨-, hc⟩ := List.append_inj h (by omega)
  exact (List.cons.inj hc).1

/-- What happens to the frame above `below` in a step that keeps such a frame. -/
theorem frame_next {P : Program ι S F A} {s s' : State ι S F} {l : Label ι A} {t : ι}
    {above above' below : List F} {g g' : F} (h : InterruptStack.next P s l = some s')
    (hl : ∀ t, l ≠ .handOut t) (hs : s.stack t = above ++ g :: below)
    (hs' : s'.stack t = above' ++ g' :: below) :
    g' = g ∨ g' = (P.deliver t s.shared g).2 ∨
      ∃ a, above = [] ∧ l = .act t a ∧ P.act t a s.shared g = some (s'.shared, g') := by
  obtain ⟨u, fs, m', fs', hu, hm, rfl⟩ := next_cases h
  by_cases htu : t = u
  · subst htu
    rw [State.put_stack_self] at hs'
    rw [hs] at hu
    cases hm with
    | spawn _ => simp at hu
    | @signal _ f fs =>
      cases above with
      | nil =>
        obtain ⟨rfl, rfl⟩ := List.cons.inj hu
        exact .inr (.inl (frame_unique [P.entry] _ hs').symm)
      | cons f₀ above =>
        obtain ⟨rfl, rfl⟩ := List.cons.inj hu
        exact .inl (frame_unique (P.entry :: _ :: above) _ hs').symm
    | @act a _ _ f f' fs ha =>
      cases above with
      | nil =>
        obtain ⟨rfl, rfl⟩ := List.cons.inj hu
        obtain rfl := frame_unique [] _ hs'
        exact .inr (.inr ⟨a, rfl, rfl, ha⟩)
      | cons f₀ above =>
        obtain ⟨rfl, rfl⟩ := List.cons.inj hu
        exact .inl (frame_unique (_ :: above) _ hs').symm
    | @finish _ f fs _ =>
      cases above with
      | nil =>
        obtain ⟨rfl, rfl⟩ := List.cons.inj hu
        have hlen := congrArg List.length hs'
        simp only [List.length_append, List.length_cons] at hlen
        omega
      | cons f₀ above =>
        obtain ⟨rfl, rfl⟩ := List.cons.inj hu
        exact .inl (frame_unique _ _ hs').symm
    | handOut _ => exact absurd rfl (hl t)
  · rw [State.put_stack_ne _ _ _ htu] at hs'
    exact .inl (frame_unique _ _ (hs.symm.trans hs')).symm

section Exactness
variable {P : Program ι S F A} {initial : State ι S F → Prop}
  {ok : State ι S F → Label ι A → Prop} {held : F → List R} {phase : F → Phase}

theorem CallCode.not_handOut (hC : CallCode P initial ok held phase) {s : State ι S F}
    {l : Label ι A} (h : ok s l) (t : ι) : l ≠ .handOut t := by
  rintro rfl
  exact hC.noHandOut s t h

theorem placed_of_reach (hC : CallCode P initial ok held phase) {s : State ι S F}
    (h : Reach ⟨initial, InterruptStack.next P⟩ ok s) (t : ι) :
    Layered (Placed held phase) (s.stack t) := by
  refine layered_of_reach (Q := fun _ => Placed held phase) h (fun s hs t => hC.empty s t hs)
    ?_ ?_ ?_ ?_ t
  · exact fun _ _ => by simp [Placed, hC.entry]
  · intro g t f fs hf
    simpa only [Placed, List.flatMap_cons, hC.deliver, hC.conserves.deliver] using hf
  · intro s t a f fs g' f' hr hs ha hf
    have hstep := hC.act s t f fs a g' f' hr hs ha
    have hlive : live held s t = (f :: fs).flatMap held := by rw [live, hs]
    rw [hlive] at hstep
    cases hp : phase f with
    | outside =>
      simp only [PhaseStep, hp] at hstep
      rcases hstep with h' | ⟨h', -⟩ <;> simp [Placed, h']
    | starting =>
      simp only [PhaseStep, hp] at hstep
      by_cases hm : (f :: fs).flatMap held = []
      · rcases hstep.2 hm with ⟨h', hh⟩ | h'
        · simpa [Placed, h', hh] using hm
        · simp [Placed, h']
      · obtain ⟨h', hh, -⟩ := hstep.1 hm
        simpa [Placed, h', hh] using hm
    | contended =>
      simp only [PhaseStep, hp] at hstep
      have hm := hf.1 hp
      rcases hstep hm with ⟨h', hh⟩ | h'
      · simpa [Placed, h', hh] using hm
      · simp [Placed, h']
    | givingUp => exact absurd hp hf.2.1
    | refused =>
      simp only [PhaseStep, hp] at hstep
      simp [Placed, hstep.1]
    | granted =>
      simp only [PhaseStep, hp] at hstep
      rcases hstep with h' | h' <;> simp [Placed, h']
  · exact fun s t _ _ _ _ _ hok => absurd rfl (hC.not_handOut hok t)

theorem During.reach {t : ι} {below : List F} {s s₁ : State ι S F}
    (h : During P ok phase t below s s₁) (hr : Reach ⟨initial, InterruptStack.next P⟩ ok s) :
    Reach ⟨initial, InterruptStack.next P⟩ ok s₁ := by
  induction h with
  | start _ _ => exact hr
  | step _ hok hn _ _ ih => exact .step ih hok hn

/-- One step of a call that started while its thread held something. -/
theorem refused_step (hC : CallCode P initial ok held phase) {s : State ι S F} {t : ι} {a : A}
    {f f' : F} {below : List F} {g' : S}
    (hr : Reach ⟨initial, InterruptStack.next P⟩ ok s) (hs : s.stack t = f :: below)
    (hp : phase f = .starting ∨ phase f = .refused) (hm : live held s t ≠ [])
    (ha : P.act t a s.shared f = some (g', f')) :
    g' = s.shared ∧ held f' = held f ∧
      phase f' = if phase f = .starting then .refused else .outside := by
  have hstep := hC.act s t f below a g' f' hr hs ha
  rcases hp with hp | hp <;> simp only [PhaseStep, hp] at hstep ⊢
  · obtain ⟨h', hh, hg⟩ := hstep.1 hm
    exact ⟨hg, hh, by simpa using h'⟩
  · obtain ⟨h', hh, hg⟩ := hstep
    exact ⟨hg, hh, by simpa using h'⟩

theorem owned_during (hC : CallCode P initial ok held phase) {t : ι} {below : List F}
    {s s₁ : State ι S F} (h : During P ok phase t below s s₁)
    (hr : Reach ⟨initial, InterruptStack.next P⟩ ok s) (hm : live held s t ≠ []) :
    ∃ above g, s₁.stack t = above ++ g :: below ∧ (g :: below).flatMap held ≠ [] ∧
      (phase g = .starting ∨ phase g = .refused) := by
  induction h with
  | @start f hs hf =>
    rw [live, hs] at hm
    exact ⟨[], f, hs, hm, .inl hf⟩
  | @step s₁ s₂ l above' g' prior hok hn hs' hf ih =>
    obtain ⟨above, g, hs, hg, hp⟩ := ih
    refine ⟨above', g', hs', ?_⟩
    rcases frame_next hn (hC.not_handOut hok) hs hs' with rfl | rfl | ⟨a, rfl, rfl, ha⟩
    · exact ⟨hg, hp⟩
    · rw [hC.deliver, List.flatMap_cons, hC.conserves.deliver]
      exact ⟨hg, hp⟩
    · have hlive : live held s₁ t ≠ [] := by rwa [live, hs]
      obtain ⟨-, hh, h'⟩ := refused_step hC (prior.reach hr) hs hp hlive ha
      rw [List.flatMap_cons, hh]
      refine ⟨hg, .inr ?_⟩
      rw [h']
      split_ifs with h₀
      · rfl
      · rw [if_neg h₀] at h'
        exact absurd h' hf

theorem unowned_during (hC : CallCode P initial ok held phase) {t : ι} {below : List F}
    {s s₁ : State ι S F} (h : During P ok phase t below s s₁)
    (hr : Reach ⟨initial, InterruptStack.next P⟩ ok s) (hm : live held s t = []) :
    ∃ above g, s₁.stack t = above ++ g :: below ∧
      (phase g = .granted ∨ (g :: below).flatMap held = [] ∧
        (phase g = .starting ∨ phase g = .contended)) := by
  induction h with
  | @start f hs hf =>
    rw [live, hs] at hm
    exact ⟨[], f, hs, .inr ⟨hm, .inl hf⟩⟩
  | @step s₁ s₂ l above' g' prior hok hn hs' hf ih =>
    obtain ⟨above, g, hs, hg⟩ := ih
    refine ⟨above', g', hs', ?_⟩
    rcases frame_next hn (hC.not_handOut hok) hs hs' with rfl | rfl | ⟨a, rfl, rfl, ha⟩
    · exact hg
    · rwa [hC.deliver, List.flatMap_cons, hC.conserves.deliver]
    · have hstep := hC.act s₁ t g below a _ g' (prior.reach hr) hs ha
      have hlive : live held s₁ t = (g :: below).flatMap held := by rw [live, hs]; rfl
      rw [hlive] at hstep
      rcases hg with hp | ⟨hm, hp | hp⟩ <;> simp only [PhaseStep, hp] at hstep
      · exact .inl (hstep.resolve_right hf)
      · rcases hstep.2 hm with ⟨h', hh⟩ | h'
        · exact .inr ⟨by rwa [List.flatMap_cons, hh], .inr h'⟩
        · exact .inl h'
      · rcases hstep hm with ⟨h', hh⟩ | h'
        · exact .inr ⟨by rwa [List.flatMap_cons, hh], .inr h'⟩
        · exact .inl h'

theorem starts_of_lock {lock : A} (hlock : StartsAt P held phase lock) {s s₀ : State ι S F}
    {t : ι} {f : F} {below : List F} (hs : s.stack t = f :: below)
    (hn : InterruptStack.next P s (.act t lock) = some s₀) :
    Starts held phase t f below s s₀ := by
  rw [next_act hs, Option.map_eq_some_iff] at hn
  obtain ⟨⟨g', f'⟩, ha, rfl⟩ := hn
  obtain ⟨hp, hh, rfl⟩ := hlock t s.shared f g' f' ha
  exact ⟨f', rfl, hp, hh⟩

theorem Starts.live_eq {s s₀ : State ι S F} {t : ι} {f : F} {below : List F}
    (h : Starts held phase t f below s s₀) (hs : s.stack t = f :: below) :
    live held s₀ t = live held s t := by
  obtain ⟨f₀, rfl, -, hh⟩ := h
  exact live_put_eq s.shared hs hh t

/-- A call of a thread that holds something is refused, whatever happens meanwhile. -/
theorem refuses_during (hC : CallCode P initial ok held phase) {s₀ s₁ : State ι S F} {t : ι}
    {below : List F} (hr : Reach ⟨initial, InterruptStack.next P⟩ ok s₀)
    (h : During P ok phase t below s₀ s₁) (hm : live held s₀ t ≠ []) :
    Refuses P held phase t below s₁ := by
  obtain ⟨above, g, hs₁, hg, hp⟩ := owned_during hC h hr hm
  refine ⟨above, g, hs₁, hp, ?_⟩
  rintro rfl
  have hm₁ : live held s₁ t ≠ [] := by rwa [live, hs₁]
  constructor
  · obtain ⟨a, r, ha⟩ := hC.enabled t s₁.shared g hp
    exact ⟨a, s₁.put t r.1 (r.2 :: below), by rw [next_act hs₁, ha]; rfl⟩
  · intro a s₂ hn₂
    rw [next_act hs₁, Option.map_eq_some_iff] at hn₂
    obtain ⟨⟨g', f'⟩, ha, rfl⟩ := hn₂
    obtain ⟨rfl, hh, h'⟩ := refused_step hC (h.reach hr) hs₁ hp hm₁ ha
    exact ⟨f', rfl, hh, h'⟩

/-- A call of a thread that holds nothing is never refused. -/
theorem notRefused_during (hC : CallCode P initial ok held phase) {s₀ s₁ : State ι S F} {t : ι}
    {below : List F} (hr : Reach ⟨initial, InterruptStack.next P⟩ ok s₀)
    (h : During P ok phase t below s₀ s₁) (hm : live held s₀ t = []) :
    NotRefused phase t below s₁ := by
  intro above g hs₁
  obtain ⟨above', g', hs', hp⟩ := unowned_during hC h hr hm
  obtain rfl := frame_unique _ _ (hs₁.symm.trans hs')
  rcases hp with hp | ⟨-, hp | hp⟩ <;> simp [hp]

/-- Both answers for one call. -/
theorem call_exact (hC : CallCode P initial ok held phase) {lock : A}
    (hlock : StartsAt P held phase lock) {s s₀ : State ι S F} {t : ι} {f : F} {below : List F}
    (hr : Reach ⟨initial, InterruptStack.next P⟩ ok s) (hs : s.stack t = f :: below)
    (hok : ok s (.act t lock)) (hn : InterruptStack.next P s (.act t lock) = some s₀) :
    Starts held phase t f below s s₀ ∧ ∀ s₁, During P ok phase t below s₀ s₁ →
      (live held s t ≠ [] → Refuses P held phase t below s₁) ∧
      (live held s t = [] → NotRefused phase t below s₁) := by
  have hstarts := starts_of_lock hlock hs hn
  have hlive := hstarts.live_eq hs
  have hr₀ : Reach ⟨initial, InterruptStack.next P⟩ ok s₀ := .step hr hok hn
  refine ⟨hstarts, fun s₁ h => ⟨fun hm => ?_, fun hm => ?_⟩⟩
  · exact refuses_during hC hr₀ h (by rwa [hlive])
  · exact notRefused_during hC hr₀ h (by rwa [hlive])

end Exactness

end SignalCrates.LockCall
