import SignalCrates.LockCall

/-!
# Code that uses a lock

A frame of the code is a frame of the lock together with a point of the code. The code is
told of a call of the lock only when the call returns, and its own steps are taken outside
of the lock. A run of the code is a run of the lock between which these steps take place.
-/
namespace SignalCrates.LockClient
open TransitionSystem InterruptStack LockCall

inductive Kind
  | call
  | access
  | drop
  | inner

/-- A lock as the code that uses it sees it. A frame is idle outside of the lock. -/
structure Lock (ι S F A R : Type*) where
  program : Program ι S F A
  kind : A → Kind
  phase : F → Phase
  idle : F → Bool
  held : F → List R

variable {ι S F A R M K B : Type*}

/-- What the actions of each kind may do to a frame of the lock. -/
inductive Lock.Does (L : Lock ι S F A R) : Kind → F → F → Prop
  | call {f f' : F} (hf : L.idle f = true) (hp : L.phase f' = .starting)
      (hh : L.held f' = L.held f) : Does L .call f f'
  | access {f f' : F} (hf : L.idle f = true) (hf' : L.idle f' = true)
      (hh : (L.held f').length = (L.held f).length) : Does L .access f f'
  | drop {f f' : F} (hf : L.idle f = true) (hp : L.phase f' = .outside)
      (hh : (L.held f).length = (L.held f').length + 1) : Does L .drop f f'
  | leave {f f' : F} (hi : L.idle f = false) (hf : L.phase f = .outside)
      (hp : L.phase f' = .outside) (hh : L.held f' = L.held f) : Does L .inner f f'
  | contend {f f' : F} (hf : L.phase f ≠ .outside ∧ L.phase f ≠ .granted ∧ L.phase f ≠ .refused)
      (hp : L.phase f' ≠ .outside ∧ L.phase f' ≠ .granted) (hh : L.held f' = L.held f) :
      Does L .inner f f'
  | grant {f f' : F} (hf : L.phase f ≠ .outside ∧ L.phase f ≠ .granted ∧ L.phase f ≠ .refused)
      (hp : L.phase f' = .granted) (hh : (L.held f').length = (L.held f).length + 1) :
      Does L .inner f f'
  | granted {f f' : F} (hf : L.phase f = .granted)
      (hp : L.phase f' = .granted ∨ L.idle f' = true) (hh : L.held f' = L.held f) :
      Does L .inner f f'
  | refused {f f' : F} (hf : L.phase f = .refused) (hp : L.idle f' = true)
      (hh : L.held f' = L.held f) : Does L .inner f f'

/-- The conditions on a lock from which the results below follow. -/
structure Lock.Usable (L : Lock ι S F A R) [DecidableEq ι] (initial : State ι S F → Prop)
    (ok : State ι S F → Label ι A → Prop) : Prop where
  calls : CallCode L.program initial ok L.held L.phase
  allowed : ∀ s l, (∀ t, l ≠ .handOut t) → ok s l
  does : ∀ t a g f g' f', L.program.act t a g f = some (g', f') → L.Does (L.kind a) f f'
  idle_phase : ∀ f, L.idle f = true → L.phase f = .outside
  entry : L.idle L.program.entry = true
  deliver : ∀ t g f, L.idle (L.program.deliver t g f).2 = L.idle f

/-- The code: where it calls the lock and drops its guard, how it goes on after a call, and
the steps of its own. -/
structure Client (M K B : Type*) where
  entry : K
  call : K → Option K
  granted : K → K
  refused : K → K
  uses : K → Bool
  drop : K → Option K
  step : B → M → K → Option (M × K)
  returns : K → Bool

structure Frame (F K : Type*) where
  lock : F
  pc : K

structure Shared (S M : Type*) where
  lock : S
  mem : M

inductive Action (A B : Type*)
  | lock (a : A)
  | own (b : B)

/-- The point of the code after an action of the lock. -/
def Client.after (C : Client M K B) (L : Lock ι S F A R) (f f' : F) (pc : K) : Kind → Option K
  | .call => C.call pc
  | .access => if C.uses pc then some pc else none
  | .drop => C.drop pc
  | .inner =>
    match L.phase f, L.phase f' with
    | .granted, .outside => some (C.granted pc)
    | .refused, .outside => some (C.refused pc)
    | _, _ => some pc

def act (L : Lock ι S F A R) (C : Client M K B) (t : ι) (a : Action A B) (s : Shared S M)
    (f : Frame F K) : Option (Shared S M × Frame F K) :=
  match a with
  | .lock a =>
    (L.program.act t a s.lock f.lock).bind fun r =>
      (C.after L f.lock r.2 f.pc (L.kind a)).map fun pc => (⟨r.1, s.mem⟩, ⟨r.2, pc⟩)
  | .own b =>
    if L.idle f.lock then
      (C.step b s.mem f.pc).map fun r => (⟨s.lock, r.1⟩, ⟨f.lock, r.2⟩)
    else none

def program (L : Lock ι S F A R) (C : Client M K B) :
    Program ι (Shared S M) (Frame F K) (Action A B) where
  entry := ⟨L.program.entry, C.entry⟩
  starts := L.program.starts
  act := act L C
  deliver t s f :=
    (⟨(L.program.deliver t s.lock f.lock).1, s.mem⟩, ⟨(L.program.deliver t s.lock f.lock).2, f.pc⟩)
  returns f := L.program.returns f.lock && C.returns f.pc
  handOut _ _ := none

abbrev World (ι S F M K : Type*) := InterruptStack.State ι (Shared S M) (Frame F K)

def initial (locks : State ι S F → Prop) (mem : M) (s : World ι S F M K) : Prop :=
  locks ⟨s.shared.lock, fun _ => []⟩ ∧ s.shared.mem = mem ∧ ∀ t, s.stack t = []

variable {L : Lock ι S F A R} {C : Client M K B} {t : ι} {s s' : Shared S M} {f f' : Frame F K}

/-- All that an action can do. -/
inductive Acts (L : Lock ι S F A R) (C : Client M K B) (s : Shared S M) (f : Frame F K) :
    Action A B → Shared S M → Frame F K → Prop
  | lock {a : A} {g : S} {k : F} {pc : K} (h : L.Does (L.kind a) f.lock k)
      (ha : C.after L f.lock k f.pc (L.kind a) = some pc) :
      Acts L C s f (.lock a) ⟨g, s.mem⟩ ⟨k, pc⟩
  | own {b : B} {m : M} {pc : K} (hf : L.idle f.lock = true)
      (hs : C.step b s.mem f.pc = some (m, pc)) : Acts L C s f (.own b) ⟨s.lock, m⟩ ⟨f.lock, pc⟩

/-- The frames and the memory of the lock alone. -/
def project (s : World ι S F M K) : State ι S F :=
  ⟨s.shared.lock, fun t => (s.stack t).map Frame.lock⟩

variable [DecidableEq ι] {locks : State ι S F → Prop} {ok : State ι S F → Label ι A → Prop}

theorem act_cases (hL : L.Usable locks ok) {a : Action A B} (h : act L C t a s f = some (s', f')) :
    Acts L C s f a s' f' := by
  cases a with
  | lock a =>
    obtain ⟨⟨g, k⟩, hk, h⟩ := Option.bind_eq_some_iff.mp h
    obtain ⟨pc, hpc, h⟩ := Option.map_eq_some_iff.mp h
    obtain ⟨rfl, rfl⟩ := Prod.mk.inj h
    exact .lock (hL.does _ _ _ _ _ _ hk) hpc
  | own b =>
    simp only [act, Option.ite_none_right_eq_some, Option.map_eq_some_iff] at h
    obtain ⟨hf, ⟨m, pc⟩, hs, h⟩ := h
    obtain ⟨rfl, rfl⟩ := Prod.mk.inj h
    exact .own hf hs

theorem project_put (s : World ι S F M K) (t : ι) (g : Shared S M) (fs : List (Frame F K)) :
    project (s.put t g fs) = (project s).put t g.lock (fs.map Frame.lock) := by
  simp only [project, State.put, State.mk.injEq, true_and]
  funext u
  by_cases hu : u = t
  · subst hu
    simp
  · simp [hu]

omit [DecidableEq ι] in
theorem project_stack {s : World ι S F M K} {t : ι} {fs : List (Frame F K)}
    (h : s.stack t = fs) : (project s).stack t = fs.map Frame.lock := congrArg _ h

/-- A step of the code is a step of the lock or leaves the lock alone. -/
theorem project_next {s s' : World ι S F M K} {l : Label ι (Action A B)}
    (h : InterruptStack.next (program L C) s l = some s') :
    project s' = project s ∨ ∃ l', (∀ t, l' ≠ .handOut t) ∧
      InterruptStack.next L.program (project s) l' = some (project s') := by
  obtain ⟨t, fs, g', fs', hs, hm, rfl⟩ := next_cases h
  have hstack := project_stack hs
  rw [project_put]
  cases hm with
  | spawn hst =>
    refine .inr ⟨.spawn t, by rintro t ⟨⟩, ?_⟩
    change (project s).stack t = [] at hstack
    simp only [InterruptStack.next, hstack]
    exact if_pos hst
  | signal =>
    refine .inr ⟨.signal t, by rintro t ⟨⟩, ?_⟩
    simp only [InterruptStack.next, hstack, List.map_cons]
    rfl
  | @act a _ _ f f' fs ha =>
    change act L C t a s.shared f = some (g', f') at ha
    cases a with
    | lock a =>
      obtain ⟨⟨g, k⟩, hk, ha⟩ := Option.bind_eq_some_iff.mp ha
      obtain ⟨pc, -, ha⟩ := Option.map_eq_some_iff.mp ha
      obtain ⟨rfl, rfl⟩ := Prod.mk.inj ha
      refine .inr ⟨.act t a, by rintro t ⟨⟩, ?_⟩
      rw [next_act hstack]
      change (L.program.act t a s.shared.lock f.lock).map _ = _
      rw [hk]
      rfl
    | own b =>
      simp only [act, Option.ite_none_right_eq_some, Option.map_eq_some_iff] at ha
      obtain ⟨-, ⟨m, pc⟩, -, ha⟩ := ha
      obtain ⟨rfl, rfl⟩ := Prod.mk.inj ha
      refine .inl ?_
      change (project s).put t (project s).shared ((f :: fs).map Frame.lock) = project s
      rw [← hstack, State.put, Function.update_eq_self]
  | finish hr =>
    refine .inr ⟨.finish t, by rintro t ⟨⟩, ?_⟩
    simp only [InterruptStack.next, hstack, List.map_cons]
    exact if_pos (Bool.and_eq_true_iff.mp hr).1
  | handOut hh => cases hh

/-- The lock is in a state that it reaches alone. -/
theorem reach_project (hL : L.Usable locks ok) {mem : M}
    {ok' : World ι S F M K → Label ι (Action A B) → Prop} {s : World ι S F M K}
    (h : Reach ⟨initial locks mem, InterruptStack.next (program L C)⟩ ok' s) :
    Reach ⟨locks, InterruptStack.next L.program⟩ ok (project s) := by
  induction h with
  | @initial s h =>
    obtain ⟨hlocks, -, hs⟩ := h
    have hproject : project s = ⟨s.shared.lock, fun _ => []⟩ := by
      simp only [project, hs, List.map_nil]
    exact .initial (hproject ▸ hlocks)
  | step _ _ hn ih =>
    rcases project_next hn with he | ⟨l', hl, hn⟩
    · rwa [he]
    · exact .step ih (hL.allowed _ _ hl) hn

/-- What an action is to the code. -/
inductive Moves (L : Lock ι S F A R) (C : Client M K B) (m : M) (f : Frame F K) :
    Action A B → M → K → Prop
  | stay {a : A} : Moves L C m f (.lock a) m f.pc
  | call {a : A} {pc : K} (h : C.call f.pc = some pc) : Moves L C m f (.lock a) m pc
  | granted {a : A} (h : L.phase f.lock = .granted) : Moves L C m f (.lock a) m (C.granted f.pc)
  | refused {a : A} (h : L.phase f.lock = .refused) : Moves L C m f (.lock a) m (C.refused f.pc)
  | drop {a : A} {pc : K} (h : C.drop f.pc = some pc) : Moves L C m f (.lock a) m pc
  | own {b : B} {m' : M} {pc : K} (h : C.step b m f.pc = some (m', pc)) :
      Moves L C m f (.own b) m' pc

omit [DecidableEq ι] in
theorem Acts.moves {a : Action A B} (h : Acts L C s f a s' f') :
    Moves L C s.mem f a s'.mem f'.pc := by
  cases h with
  | own _ hs => exact .own hs
  | @lock a g k pc hd ha =>
    generalize L.kind a = kind at hd ha
    cases kind with
    | call => exact .call ha
    | access =>
      obtain rfl : f.pc = pc := by simpa using (Option.ite_none_right_eq_some.mp ha).2
      exact .stay
    | drop => exact .drop ha
    | inner =>
      rw [Client.after] at ha
      split at ha
      · obtain rfl := Option.some.inj ha
        exact .granted ‹_›
      · obtain rfl := Option.some.inj ha
        exact .refused ‹_›
      · obtain rfl := Option.some.inj ha
        exact .stay

/-- Where the code stands with respect to the lock. -/
inductive Place
  | outside
  | calling
  | inside
  deriving DecidableEq

/-- The code has one call or one guard at a time, and it drops the guard that it got. -/
structure Client.Lawful (C : Client M K B) (place : K → Place) : Prop where
  entry : place C.entry = .outside
  call : ∀ k k', C.call k = some k' → place k = .outside ∧ place k' = .calling
  granted : ∀ k, place k = .calling → place (C.granted k) = .inside
  refused : ∀ k, place k = .calling → place (C.refused k) = .outside
  drop : ∀ k k', C.drop k = some k' → place k = .inside ∧ place k' = .outside
  step : ∀ b m k m' k', C.step b m k = some (m', k') → place k' = place k

/-- The frame of the lock is where the code has left it. -/
def Matched (L : Lock ι S F A R) (place : K → Place) (f : Frame F K) : Prop :=
  match place f.pc with
  | .outside => L.phase f.lock = .outside ∧ L.held f.lock = []
  | .calling => L.phase f.lock ≠ .outside ∧
      (L.held f.lock).length = if L.phase f.lock = .granted then 1 else 0
  | .inside => L.idle f.lock = true ∧ (L.held f.lock).length = 1

theorem Matched.calling (hL : L.Usable locks ok) {place : K → Place} (hf : Matched L place f)
    (hp : L.phase f.lock ≠ .outside) : place f.pc = .calling ∧
      (L.held f.lock).length = if L.phase f.lock = .granted then 1 else 0 := by
  rw [Matched] at hf
  cases hplace : place f.pc with
  | outside =>
    rw [hplace] at hf
    exact absurd hf.1 hp
  | calling =>
    rw [hplace] at hf
    exact ⟨rfl, hf.2⟩
  | inside =>
    rw [hplace] at hf
    exact absurd (hL.idle_phase _ hf.1) hp

theorem Acts.matched (hL : L.Usable locks ok) {place : K → Place} (hC : C.Lawful place)
    {a : Action A B} (h : Acts L C s f a s' f') (hf : Matched L place f) : Matched L place f' := by
  cases h with
  | own _ hs =>
    rw [Matched, hC.step _ _ _ _ _ hs]
    exact hf
  | @lock a g k pc hd ha =>
    generalize L.kind a = kind at hd ha
    cases hd with
    | call hi hp hh =>
      obtain ⟨hout, hcalling⟩ := hC.call _ _ ha
      rw [Matched, hout] at hf
      simp only [Matched, hcalling, hp, hh, hf.2]
      simp
    | access hi hi' hh =>
      obtain rfl : f.pc = pc := by
        simpa [Client.after] using (Option.ite_none_right_eq_some.mp ha).2
      have hp := hL.idle_phase _ hi
      have hp' := hL.idle_phase _ hi'
      rw [Matched] at hf ⊢
      cases hplace : place f.pc with
      | outside =>
        rw [hplace] at hf
        exact ⟨hp', List.length_eq_zero_iff.mp (by rw [hh, hf.2]; rfl)⟩
      | calling =>
        rw [hplace] at hf
        exact absurd hp hf.1
      | inside =>
        rw [hplace] at hf
        exact ⟨hi', hh.trans hf.2⟩
    | drop hi hp hh =>
      obtain ⟨hinside, hout⟩ := hC.drop _ _ ha
      rw [Matched, hinside] at hf
      simp only [Matched, hout]
      exact ⟨hp, List.length_eq_zero_iff.mp (by have := hf.2; omega)⟩
    | leave hi hp hp' hh =>
      obtain rfl : f.pc = pc := by simpa [Client.after, hp] using ha
      rw [Matched] at hf ⊢
      cases hplace : place f.pc with
      | outside =>
        rw [hplace] at hf
        exact ⟨hp', hh.trans hf.2⟩
      | calling =>
        rw [hplace] at hf
        exact absurd hp hf.1
      | inside =>
        rw [hplace] at hf
        exact absurd hf.1 (by simp [hi])
    | contend hp hp' hh =>
      obtain ⟨hplace, hlen⟩ := hf.calling hL hp.1
      rw [if_neg hp.2.1] at hlen
      obtain rfl : f.pc = pc := by
        rw [Client.after] at ha
        split at ha
        · exact absurd ‹_› hp.2.1
        · exact absurd ‹_› hp.2.2
        · exact Option.some.inj ha
      rw [Matched, hplace]
      exact ⟨hp'.1, by rw [if_neg hp'.2, hh, hlen]⟩
    | grant hp hp' hh =>
      obtain ⟨hplace, hlen⟩ := hf.calling hL hp.1
      rw [if_neg hp.2.1] at hlen
      obtain rfl : f.pc = pc := by
        rw [Client.after, hp'] at ha
        split at ha
        · cases ‹Phase.granted = _›
        · cases ‹Phase.granted = _›
        · exact Option.some.inj ha
      rw [Matched, hplace]
      exact ⟨by simp [hp'], by rw [if_pos hp', hh, hlen]⟩
    | granted hp hp' hh =>
      obtain ⟨hplace, hlen⟩ := hf.calling hL (by simp [hp])
      rw [if_pos hp] at hlen
      rcases hp' with hp' | hi'
      · obtain rfl : f.pc = pc := by simpa [Client.after, hp, hp'] using ha
        rw [Matched, hplace]
        exact ⟨by simp [hp'], by rw [if_pos hp', hh, hlen]⟩
      · obtain rfl : C.granted f.pc = pc := by
          simpa [Client.after, hp, hL.idle_phase _ hi'] using ha
        rw [Matched, hC.granted _ hplace]
        exact ⟨hi', by rw [hh, hlen]⟩
    | refused hp hi' hh =>
      obtain ⟨hplace, hlen⟩ := hf.calling hL (by simp [hp])
      rw [hp] at hlen
      obtain rfl : C.refused f.pc = pc := by
        simpa [Client.after, hp, hL.idle_phase _ hi'] using ha
      rw [Matched, hC.refused _ hplace]
      exact ⟨hL.idle_phase _ hi', List.length_eq_zero_iff.mp (by rw [hh, hlen]; rfl)⟩

section Reached
variable {mem : M} {ok' : World ι S F M K → Label ι (Action A B) → Prop} {s : World ι S F M K}
  {place : K → Place}

theorem matched_of_reach (hL : L.Usable locks ok) (hC : C.Lawful place)
    (h : Reach ⟨initial locks mem, InterruptStack.next (program L C)⟩ ok' s) (t : ι) :
    ∀ f ∈ s.stack t, Matched L place f := by
  refine (layered_of_reach (Q := fun _ f _ => Matched L place f) h (fun s hs => hs.2.2) ?_ ?_ ?_ ?_
    t).mem
  · intro t fs
    have hplace : place (program L C).entry.pc = .outside := hC.entry
    rw [Matched, hplace]
    exact ⟨hL.idle_phase _ hL.entry, hL.calls.conserves.entry⟩
  · intro g t f fs hf
    simpa only [Matched, program, hL.calls.deliver, hL.deliver, hL.calls.conserves.deliver] using hf
  · exact fun s t a f fs g' f' _ _ ha hf => (act_cases hL ha).matched hL hC hf
  · rintro s t f f₀ fs f' f₀' - ⟨⟩

/-- A call is refused only above a frame that is inside or has just been granted the lock. -/
theorem exists_holder (hL : L.Usable locks ok) (hC : C.Lawful place)
    (h : Reach ⟨initial locks mem, InterruptStack.next (program L C)⟩ ok' s) {t : ι}
    {f : Frame F K} {below : List (Frame F K)} (hs : s.stack t = f :: below)
    (hf : L.phase f.lock = .refused) : ∃ f₀ ∈ below, place f₀.pc ≠ .outside := by
  have hplaced := placed_of_reach hL.calls (reach_project hL h) t
  rw [project_stack hs] at hplaced
  have hheld := hplaced.1.2.2 hf
  have hmatched := matched_of_reach hL hC h t
  rw [hs] at hmatched
  obtain ⟨-, hlen⟩ := (hmatched f (by simp)).calling hL (by simp [hf])
  rw [hf] at hlen
  have hnil : L.held f.lock = [] := List.length_eq_zero_iff.mp hlen
  by_contra hnone
  have hnone : ∀ f₀ ∈ below, place f₀.pc = .outside := by simpa using hnone
  refine hheld (List.flatMap_eq_nil_iff.mpr ?_)
  intro k hk
  rcases List.mem_cons.mp hk with rfl | hk
  · exact hnil
  · obtain ⟨f₀, hf₀, rfl⟩ := List.mem_map.mp hk
    have hm := hmatched f₀ (by simp [hf₀])
    rw [Matched, hnone f₀ hf₀] at hm
    exact hm.2

end Reached

end SignalCrates.LockClient
