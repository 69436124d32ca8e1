import SignalCrates.Fork
import SignalCrates.CellRefinement

/-!
# Calls of a lock after a fork

A frame carries the identifier that its thread had when its call began, and a guard the
one under which it was taken. A thread gets a new identifier by a fork, and its frames
and guards keep the old one.
-/
namespace SignalCrates.Fork
open TransitionSystem InterruptStack LockCall CellRefinement

variable {ι S F A G T : Type*} [DecidableEq ι]

/-- At most one guard is live, and the memory names the identifier in it. -/
def Owned (V : View ι S F G T) (s : State ι S F) : Prop :=
  ∃ o, Sole (live V.held s) o ∧ ∀ q, o = some q → V.heldBy (V.tid q.2) s.shared

omit [DecidableEq ι] in
theorem Owned.keep {V : View ι S F G T} {s s' : State ι S F} (h : Owned V s)
    (hs : V.Same s.shared s'.shared) (hl : ∀ t, live V.held s' t = live V.held s t) :
    Owned V s' := by
  obtain ⟨o, hsole, ho⟩ := h
  exact ⟨o, hsole.congr hl, fun q hq => hs.heldBy _ (ho q hq)⟩

theorem Owned.effect {V : View ι S F G T} {s : State ι S F} (h : Owned V s) {t c : ι}
    {f f' : F} {fs : List F} {g' : S} (hs : s.stack t = f :: fs)
    (he : Effect V c s.shared f g' f') : Owned V (s.put t g' (f' :: fs)) := by
  cases he with
  | keep hf _ hsame => exact h.keep hsame (live_put_eq g' hs hf)
  | acquire u r hf ht _ _ hfree hby =>
    obtain ⟨o, hsole, ho⟩ := h
    obtain rfl : o = none := by
      cases o with
      | none => rfl
      | some q => exact absurd hfree (V.not_free _ _ (ho q rfl))
    refine ⟨some (t, r), hsole.take hs hf, ?_⟩
    rintro q ⟨⟩
    rw [State.put_shared, ht]
    exact hby
  | access a r r' rs hf hf' ht _ hsame =>
    obtain ⟨o, hsole, ho⟩ := h
    obtain ⟨rfl, -, -⟩ := hsole.of_frame hs hf
    refine ⟨some (t, r'), hsole.change hs hf hf', ?_⟩
    rintro q ⟨⟩
    rw [State.put_shared, ht]
    exact hsame.heldBy _ (ho _ rfl)
  | release r rs hf hf' _ _ =>
    obtain ⟨o, hsole, -⟩ := h
    exact ⟨none, hsole.drop hs hf hf', by rintro q ⟨⟩⟩

theorem Owned.heldBy {V : View ι S F G T} {s : State ι S F} (h : Owned V s) {t : ι} {r : G}
    (hr : r ∈ live V.held s t) : V.heldBy (V.tid r) s.shared := by
  obtain ⟨o, hsole, ho⟩ := h
  obtain ⟨r', rs, hl⟩ := List.exists_cons_of_ne_nil (List.ne_nil_of_mem hr)
  obtain ⟨rfl, rfl⟩ := hsole.of_cons hl
  rw [hl, List.mem_singleton] at hr
  rw [hr]
  exact ho _ rfl

/-- The conditions on one lock's code under which a call can be followed after forks:
`caller` is the identifier that a frame carries, `fits` its locals in any process. -/
structure LockCode (P : Program ι S F A) (K : Forking S F) (V : View ι S F G T)
    (phase : F → Phase) (caller : F → Option ι) (fits aborted : F → Prop) (lock drop : A) :
    Prop where
  conserves : Conserves P V.held
  entry : fits P.entry
  deliver : ∀ t g f, V.Same g (P.deliver t g f).1 ∧ (fits f → fits (P.deliver t g f).2) ∧
    phase (P.deliver t g f).2 = phase f ∧ caller (P.deliver t g f).2 = caller f
  handOut : ∀ f g f' g', P.handOut g f = some (g', f') → (fits g → fits f → fits g' ∧ fits f') ∧
    phase f' = phase f ∧ caller f' = caller f ∧ ∀ r ∈ V.held f, r ∈ V.held f'
  copy : ∀ g, V.Same g (K.copy g)
  share : ∀ g g', V.Same g' (K.share g g')
  act : ∀ t a g f g' f', P.starts t = true → fits f → P.act t a g f = some (g', f') →
    fits f' ∧ ∃ c, Effect V c g f g' f'
  inside : ∀ f, phase f ≠ .outside → P.returns f = false ∧ ∀ f₀, P.handOut f f₀ = none
  startsAt : StartsAt P V.held phase lock
  calls : ∀ t g f g' f', P.act t lock g f = some (g', f') → caller f' = some t
  refuse : ∀ t a g f g' f' c, phase f = .starting → caller f = some c → V.heldBy c g →
    P.act t a g f = some (g', f') → phase f' = .refused ∧ V.held f' = V.held f ∧ g' = g
  refused : ∀ t a g f g' f', phase f = .refused → P.act t a g f = some (g', f') →
    phase f' = .outside ∧ V.held f' = V.held f ∧ g' = g
  block : ∀ t a g f g' f' c c', phase f = .starting ∨ phase f = .contended →
    caller f = some c → V.heldBy c' g → c ≠ c' → P.act t a g f = some (g', f') →
    phase f' = .contended ∧ V.held f' = V.held f ∧ caller f' = some c
  enabled : ∀ t g f, phase f = .starting ∨ phase f = .refused → ∃ a r, P.act t a g f = some r
  drop : ∀ t g f g' f', P.act t drop g f = some (g', f') → ∃ r rs, V.held f = r :: rs ∧
    (V.heldBy (V.tid r) g → V.free g' ∧ ¬ aborted f')

/-- What holds of every process, however it came about. -/
def Sane (P : Program ι S F A) (V : View ι S F G T) (fits : F → Prop) (s : State ι S F) : Prop :=
  (∀ t, Layered (fun f _ => fits f) (s.stack t)) ∧
    (∀ t, s.stack t ≠ [] → P.starts t = true) ∧ Owned V s

section Code
variable {P : Program ι S F A} {K : Forking S F} {V : View ι S F G T} {phase : F → Phase}
  {caller : F → Option ι} {fits aborted : F → Prop} {lock drop : A}

theorem sane_step (hC : LockCode P K V phase caller fits aborted lock drop) {s s' : State ι S F}
    {l : Label ι A} (h : Sane P V fits s) (hn : InterruptStack.next P s l = some s') :
    Sane P V fits s' := by
  obtain ⟨hfits, hstarts, howned⟩ := h
  refine ⟨?_, starts_next hn hstarts, ?_⟩
  · refine layered_next hn hfits (fun _ _ => hC.entry) ?_ ?_ ?_
    · exact fun t f fs hf => (hC.deliver t s.shared f).2.1 hf
    · intro t a f fs g' f' _ hs ha hf
      exact (hC.act t a s.shared f g' f' (hstarts t (by simp [hs])) hf ha).1
    · intro t f f₀ fs f' f₀' _ hh hf hf₀
      exact (hC.handOut f₀ f f₀' f' hh).1 hf hf₀
  · rcases hC.conserves.live_next hn with ⟨hl, hact⟩ | ⟨t, b, f, fs, g', f', rfl, hs, ha, rfl⟩
    · refine howned.keep ?_ hl
      rcases shared_next hn hact with he | ⟨t, f, he⟩
      · rw [he]
        exact .refl V _
      · rw [he]
        exact (hC.deliver t s.shared f).1
    · have ht := hfits t
      rw [hs] at ht
      obtain ⟨-, c, he⟩ := hC.act t b s.shared f g' f' (hstarts t (by simp [hs])) ht.1 ha
      exact howned.effect hs he

theorem sane_child (hC : LockCode P K V phase caller fits aborted lock drop) {s : State ι S F}
    {t u : ι} {f : F} {fs : List F} (h : Sane P V fits s) (hs : s.stack t = f :: fs)
    (hu : P.starts u = true) : Sane P V fits (child K s u (f :: fs)) := by
  obtain ⟨hfits, -, o, hsole, ho⟩ := h
  refine ⟨fun v => ?_, fun v hv => ?_, ?_⟩
  · by_cases huv : v = u
    · subst huv
      rw [child_stack_self, ← hs]
      exact hfits t
    · rw [child_stack_ne K s _ huv]
      trivial
  · by_cases huv : v = u
    · rwa [huv]
    · exact absurd (child_stack_ne K s _ huv) hv
  · have hself : live V.held (child K s u (f :: fs)) u = live V.held s t := by
      rw [live, child_stack_self, live, hs]
    have hrest : ∀ v, v ≠ u → live V.held (child K s u (f :: fs)) v = [] := by
      intro v hv
      rw [live, child_stack_ne K s _ hv]
      rfl
    cases hl : live V.held s t with
    | nil =>
      refine ⟨none, fun v => ?_, by rintro q ⟨⟩⟩
      by_cases hv : v = u
      · rw [hv, hself, hl]
      · exact hrest v hv
    | cons r rs =>
      obtain ⟨rfl, rfl⟩ := hsole.of_cons hl
      refine ⟨some (u, r), ⟨hself.trans hl, hrest⟩, ?_⟩
      rintro q ⟨⟩
      exact (hC.copy s.shared).heldBy _ (ho (t, r) rfl)

theorem sane_of_reach (hC : LockCode P K V phase caller fits aborted lock drop)
    {initial : World ι S F → Prop} (hinit : ∀ w, initial w → ∀ s ∈ w, ∀ t, s.stack t = [])
    {ok : World ι S F → Event ι A → Prop} {w : World ι S F}
    (h : Reach ⟨initial, next P K⟩ ok w) : ∀ s ∈ w, Sane P V fits s := by
  refine h.invariant (I := fun w => ∀ s ∈ w, Sane P V fits s) ?_ ?_
  · intro w hw s hs
    have hnil := hinit w hw s hs
    refine ⟨fun t => ?_, fun t ht => absurd (hnil t) ht, none, fun t => ?_, by rintro q ⟨⟩⟩
    · rw [hnil t]
      trivial
    · rw [live, hnil t]
      rfl
  · intro w e w' _ hI _ hn
    refine forall_next hn hI ?_ ?_ ?_
    · exact fun _ _ _ _ _ _ hn hs => sane_step hC hs hn
    · rintro _ _ _ _ s' s₀ - - - - - ⟨hfits, hstarts, howned⟩
      exact ⟨hfits, hstarts, howned.keep (hC.share s'.shared s₀.shared) fun _ => rfl⟩
    · exact fun _ _ _ _ _ _ _ _ ht _ hu hs => sane_child hC hs ht hu

/-- The call that begins in `w` is refused by the next step of its own frame, changes
nothing in its process and waits for nothing. -/
def Refuses (P : Program ι S F A) (K : Forking S F) (phase : F → Phase) (p : ℕ) (t : ι)
    (w : World ι S F) : Prop :=
  ∀ below w₁, During P K phase p t below w w₁ → ∃ s above f, w₁[p]? = some s ∧
    s.stack t = above ++ f :: below ∧ (phase f = .starting ∨ phase f = .refused) ∧
    (above = [] → (∃ a w₂, next P K w₁ (.step p (.act t a)) = some w₂) ∧
      ∀ a w₂, next P K w₁ (.step p (.act t a)) = some w₂ → ∃ f', w₂[p]? =
        some (s.put t s.shared (f' :: below)) ∧
        phase f' = if phase f = .starting then .refused else .outside)

/-- An action in the world is an action of the process. -/
theorem next_act {w w₂ : World ι S F} {p : ℕ} {s : State ι S F} {t : ι} {a : A} {f : F}
    {fs : List F} (hp : w[p]? = some s) (hs : s.stack t = f :: fs) :
    next P K w (.step p (.act t a)) = some w₂ ↔ ∃ r, P.act t a s.shared f = some r ∧
      w₂ = update K w p (s.put t r.1 (r.2 :: fs)) := by
  simp only [next, admits, if_true, hp, Option.bind_some, InterruptStack.next_act hs,
    Option.map_map, Option.map_eq_some_iff, Function.comp_apply]
  exact exists_congr fun r => and_congr_right' eq_comm

/-- The call has begun, with no other effect in its process or on it. -/
def StartsIn (held : F → List G) (phase : F → Phase) (p : ℕ) (t : ι) (s : State ι S F)
    (w₀ : World ι S F) : Prop :=
  ∃ f below s₀, s.stack t = f :: below ∧ w₀[p]? = some s₀ ∧ Starts held phase t f below s s₀

/-- The call has just begun: it carries the thread's present identifier. -/
theorem lock_started (hC : LockCode P K V phase caller fits aborted lock drop)
    {w w₀ : World ι S F} {p : ℕ} {s : State ι S F} {t : ι} (hp : w[p]? = some s)
    (hn : next P K w (.step p (.act t lock)) = some w₀) :
    StartsIn V.held phase p t s w₀ ∧
    ∃ f below, stackOf w₀ p t = f :: below ∧ phase f = .starting ∧ caller f = some t ∧
      (f :: below).flatMap V.held = live V.held s t := by
  cases hs : s.stack t with
  | nil => simp [next, hp, InterruptStack.next, hs] at hn
  | cons f fs =>
    obtain ⟨⟨g', f'⟩, ha, rfl⟩ := (next_act hp hs).mp hn
    obtain ⟨hphase, hheld, rfl⟩ := hC.startsAt t s.shared f g' f' ha
    have hp₀ := getElem?_update_self K (s.put t s.shared (f' :: fs)) hp
    refine ⟨⟨f, fs, _, hs, hp₀, f', rfl, hphase, hheld⟩, f', fs, ?_, hphase,
      hC.calls t s.shared f s.shared f' ha, ?_⟩
    · rw [stackOf_eq hp₀, State.put_stack_self]
    · rw [live, hs, List.flatMap_cons, List.flatMap_cons, hheld]

theorem refuses_own (hC : LockCode P K V phase caller fits aborted lock drop)
    {initial : World ι S F → Prop} (hinit : ∀ w, initial w → ∀ s ∈ w, ∀ t, s.stack t = [])
    {w w₀ : World ι S F} (hr : Reach ⟨initial, next P K⟩ anyStep w) {p : ℕ} {s : State ι S F}
    {t : ι} {r : G} (hp : w[p]? = some s) (hg : r ∈ live V.held s t) (ht : V.tid r = t)
    (hn : next P K w (.step p (.act t lock)) = some w₀) : Refuses P K phase p t w₀ := by
  obtain ⟨-, f₀, below₀, hs₀, hphase₀, hcaller₀, hheld₀⟩ := lock_started hC hp hn
  intro below w₁ hd
  let Good (f : F) : Prop := (phase f = .starting ∧ caller f = some t ∨ phase f = .refused) ∧
    r ∈ (f :: below).flatMap V.held
  have hsane := fun w (hw : Reach ⟨initial, next P K⟩ anyStep w) => sane_of_reach hC hinit hw
  have hw₀ : Reach ⟨initial, next P K⟩ anyStep w₀ :=
    .step hr (a := .step p (.act t lock)) trivial hn
  obtain ⟨hr₁, above, f, hs, hf, hcall, hmem⟩ : Reach ⟨initial, next P K⟩ anyStep w₁ ∧
      ∃ above f, stackOf w₁ p t = above ++ f :: below ∧ phase f ≠ .outside ∧ Good f := by
    refine hd.keeps hC.inside hsane ?_ ?_ ?_ hw₀ ?_
    · rintro g f ⟨hcall, hmem⟩
      obtain ⟨-, -, hphase, hcaller⟩ := hC.deliver t g f
      exact ⟨by rwa [hphase, hcaller], mem_flatMap_head (hC.conserves.deliver t g f) hmem⟩
    · rintro f g g' f' hh ⟨hcall, hmem⟩
      obtain ⟨-, hphase, hcaller, hsub⟩ := hC.handOut f g f' g' hh
      refine ⟨by rwa [hphase, hcaller], ?_⟩
      rw [List.flatMap_cons, List.mem_append] at hmem ⊢
      exact hmem.imp_left (hsub r)
    · rintro s a g' f f' hI hs hf' ⟨hcall, hmem⟩ ha
      have hby : V.heldBy t s.shared := by
        rw [← ht]
        exact hI.2.2.heldBy (by rwa [live, hs])
      rcases hcall with ⟨hphase, hcaller⟩ | hphase
      · obtain ⟨hphase', hsame, -⟩ := hC.refuse t a s.shared f g' f' t hphase hcaller hby ha
        exact ⟨.inr hphase', mem_flatMap_head hsame hmem⟩
      · exact absurd (hC.refused t a s.shared f g' f' hphase ha).1 hf'
    · intro f hf
      obtain ⟨rfl, rfl⟩ := List.cons.inj (hs₀.symm.trans hf)
      exact ⟨.inl ⟨hphase₀, hcaller₀⟩, by rwa [hheld₀]⟩
  obtain ⟨s₁, hp₁⟩ := exists_process (w := w₁) (p := p) (t := t) (by simp [hs])
  rw [stackOf_eq hp₁] at hs
  refine ⟨s₁, above, f, hp₁, hs, hcall.imp_left And.left, ?_⟩
  rintro rfl
  constructor
  · obtain ⟨a, r', ha⟩ := hC.enabled t s₁.shared f (hcall.imp_left And.left)
    exact ⟨a, _, (next_act hp₁ hs).mpr ⟨r', ha, rfl⟩⟩
  · intro a w₂ hn₂
    obtain ⟨⟨g', f'⟩, ha, rfl⟩ := (next_act hp₁ hs).mp hn₂
    refine ⟨f', ?_⟩
    rw [getElem?_update_self K _ hp₁]
    rcases hcall with ⟨hphase, hcaller⟩ | hphase
    · have hby : V.heldBy t s₁.shared := by
        rw [← ht]
        exact (hsane w₁ hr₁ s₁ (List.mem_of_getElem? hp₁)).2.2.heldBy
          (by rw [live, hs]; exact hmem)
      obtain ⟨hphase', -, rfl⟩ := hC.refuse t a s₁.shared f g' f' t hphase hcaller hby ha
      exact ⟨rfl, by rw [if_pos hphase, hphase']⟩
    · obtain ⟨hphase', -, rfl⟩ := hC.refused t a s₁.shared f g' f' hphase ha
      exact ⟨rfl, by rw [hphase, if_neg (by rintro ⟨⟩), hphase']⟩

/-- A call of a thread whose guard carries another identifier never returns. -/
theorem blocks_inherited (hC : LockCode P K V phase caller fits aborted lock drop)
    {initial : World ι S F → Prop} (hinit : ∀ w, initial w → ∀ s ∈ w, ∀ t, s.stack t = [])
    {w w₀ w₁ : World ι S F} (hr : Reach ⟨initial, next P K⟩ anyStep w) {p : ℕ} {s : State ι S F}
    {t : ι} {r : G} (hp : w[p]? = some s) (hg : r ∈ live V.held s t) (ht : V.tid r ≠ t)
    (hn : next P K w (.step p (.act t lock)) = some w₀) {below : List F}
    (hd : During P K phase p t below w₀ w₁) :
    ∃ above f, stackOf w₁ p t = above ++ f :: below ∧
      (phase f = .starting ∨ phase f = .contended) := by
  obtain ⟨-, f₀, below₀, hs₀, hphase₀, hcaller₀, hheld₀⟩ := lock_started hC hp hn
  let Good (f : F) : Prop := (phase f = .starting ∨ phase f = .contended) ∧
    caller f = some t ∧ r ∈ (f :: below).flatMap V.held
  have hsane := fun w (hw : Reach ⟨initial, next P K⟩ anyStep w) => sane_of_reach hC hinit hw
  have hw₀ : Reach ⟨initial, next P K⟩ anyStep w₀ :=
    .step hr (a := .step p (.act t lock)) trivial hn
  suffices h : Reach ⟨initial, next P K⟩ anyStep w₁ ∧
      ∃ above f, stackOf w₁ p t = above ++ f :: below ∧ phase f ≠ .outside ∧ Good f by
    obtain ⟨-, above, f, hs, -, hcall, -⟩ := h
    exact ⟨above, f, hs, hcall⟩
  refine hd.keeps hC.inside hsane ?_ ?_ ?_ hw₀ ?_
  · rintro g f ⟨hcall, hcaller, hmem⟩
    obtain ⟨-, -, hphase, hcaller'⟩ := hC.deliver t g f
    exact ⟨by rwa [hphase], hcaller'.trans hcaller,
      mem_flatMap_head (hC.conserves.deliver t g f) hmem⟩
  · rintro f g g' f' hh ⟨hcall, hcaller, hmem⟩
    obtain ⟨-, hphase, hcaller', hsub⟩ := hC.handOut f g f' g' hh
    refine ⟨by rwa [hphase], hcaller'.trans hcaller, ?_⟩
    rw [List.flatMap_cons, List.mem_append] at hmem ⊢
    exact hmem.imp_left (hsub r)
  · rintro s a g' f f' hI hs - ⟨hcall, hcaller, hmem⟩ ha
    have hby : V.heldBy (V.tid r) s.shared := hI.2.2.heldBy (by rwa [live, hs])
    obtain ⟨hphase', hsame, hcaller'⟩ :=
      hC.block t a s.shared f g' f' t (V.tid r) hcall hcaller hby ht.symm ha
    exact ⟨.inr hphase', hcaller', mem_flatMap_head hsame hmem⟩
  · intro f hf
    obtain ⟨rfl, rfl⟩ := List.cons.inj (hs₀.symm.trans hf)
    exact ⟨.inl hphase₀, hcaller₀, by rwa [hheld₀]⟩

theorem not_refuses_inherited (hC : LockCode P K V phase caller fits aborted lock drop)
    {initial : World ι S F → Prop} (hinit : ∀ w, initial w → ∀ s ∈ w, ∀ t, s.stack t = [])
    {w w₀ : World ι S F} (hr : Reach ⟨initial, next P K⟩ anyStep w) {p : ℕ} {s : State ι S F}
    {t : ι} {r : G} (hp : w[p]? = some s) (hg : r ∈ live V.held s t) (ht : V.tid r ≠ t)
    (hn : next P K w (.step p (.act t lock)) = some w₀) : ¬ Refuses P K phase p t w₀ := by
  intro h
  obtain ⟨-, f₀, below, hs₀, hphase₀, -, -⟩ := lock_started hC hp hn
  have hstart : During P K phase p t below w₀ w₀ := .start hs₀ hphase₀
  obtain ⟨s₁, above, f, hp₁, hs₁, -, hnext⟩ := h below w₀ hstart
  rw [stackOf_eq hp₁] at hs₀
  obtain rfl : above = [] := by
    have hlen := congrArg List.length (hs₀.symm.trans hs₁)
    simpa using hlen
  obtain ⟨⟨a, w₂, hn₂⟩, hall⟩ := hnext rfl
  obtain ⟨f', hp₂, hphase'⟩ := hall a w₂ hn₂
  obtain rfl : f = f₀ := (List.cons.inj (hs₁.symm.trans hs₀)).1
  rw [if_pos hphase₀] at hphase'
  have hs₂ : stackOf w₂ p t = [] ++ f' :: below := by
    rw [stackOf_eq hp₂, State.put_stack_self, List.nil_append]
  have hd : During P K phase p t below w₀ w₂ := .step hstart hn₂ hs₂ (by simp [hphase'])
  obtain ⟨above, f'', hs'', hcall⟩ := blocks_inherited hC hinit hr hp hg ht hn hd
  rw [frame_unique _ _ (hs''.symm.trans hs₂), hphase'] at hcall
  simp at hcall

/-- What a thread that owns a guard can do with the lock, however it came by the guard. -/
def ForkSafe (P : Program ι S F A) (K : Forking S F) (V : View ι S F G T) (phase : F → Phase)
    (aborted : F → Prop) (lock drop : A) (initial : World ι S F → Prop) : Prop :=
  ∀ w, Reach ⟨initial, next P K⟩ anyStep w → ∀ p s t r, w[p]? = some s → r ∈ live V.held s t →
    (∀ w', next P K w (.step p (.act t drop)) = some w' → ∃ s' f fs, w'[p]? = some s' ∧
      s'.stack t = f :: fs ∧ ¬ aborted f ∧ V.free s'.shared) ∧
    ∀ w₀, next P K w (.step p (.act t lock)) = some w₀ → StartsIn V.held phase p t s w₀ ∧
      (Refuses P K phase p t w₀ ↔ V.tid r = t) ∧
      (V.tid r ≠ t → ∀ below w₁, During P K phase p t below w₀ w₁ → ∃ above f,
        stackOf w₁ p t = above ++ f :: below ∧ (phase f = .starting ∨ phase f = .contended))

theorem forkSafe (hC : LockCode P K V phase caller fits aborted lock drop)
    {initial : World ι S F → Prop} (hinit : ∀ w, initial w → ∀ s ∈ w, ∀ t, s.stack t = []) :
    ForkSafe P K V phase aborted lock drop initial := by
  intro w hr p s t r hp hg
  refine ⟨fun w' hn => ?_, fun w₀ hn =>
    ⟨(lock_started hC hp hn).1, ⟨fun h => ?_, fun ht => ?_⟩, fun ht below w₁ => ?_⟩⟩
  · cases hs : s.stack t with
    | nil => simp [next, hp, InterruptStack.next, hs] at hn
    | cons f fs =>
      obtain ⟨⟨g', f'⟩, ha, rfl⟩ := (next_act hp hs).mp hn
      obtain ⟨r', rs, hheld, hdrop⟩ := hC.drop t s.shared f g' f' ha
      have hlive : r' ∈ live V.held s t := by
        rw [live, hs, List.flatMap_cons, hheld]
        simp
      have hsane := sane_of_reach hC hinit hr s (List.mem_of_getElem? hp)
      obtain ⟨hfree, hok⟩ := hdrop (hsane.2.2.heldBy hlive)
      exact ⟨_, f', fs, getElem?_update_self K _ hp, State.put_stack_self _ _ _ _, hok, hfree⟩
  · by_contra ht
    exact not_refuses_inherited hC hinit hr hp hg ht hn h
  · exact refuses_own hC hinit hr hp hg ht hn
  · exact blocks_inherited hC hinit hr hp hg ht hn

end Code

end SignalCrates.Fork
