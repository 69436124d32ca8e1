import SignalCrates.MutexAlgorithm
import SignalCrates.InterruptStack
import SignalCrates.Completion
import SignalCrates.Fairness

/-!
# Runs of the algorithm as runs of the code

Every call of `lock_unlock` stands for one frame of the code. When the code can follow each
step of a call, the reachable states of the algorithm are those of the code, and the
algorithm terminates when the code completes: a process makes boundedly many calls, and
between two new calls the code takes boundedly many steps.
-/
namespace SignalCrates.MutexAlgorithm
open TransitionSystem InterruptStack Completion Fairness

variable {Proc L G V ι S F B : Type*} [DecidableEq ι]

/-- The thread of a process, the frames that a call at a label stands for, and the states of
the code that belong to the global variables. -/
structure Correspondence (Proc L G V ι S F : Type*) where
  tid : Proc → ι
  frame : Proc → L → V → F → Prop
  globals : G → InterruptStack.State ι S F → Prop
  rank : L → ℕ

structure Related (A : Algorithm Proc L G V) (C : Correspondence Proc L G V ι S F)
    (s : State Proc L G V) (a : InterruptStack.State ι S F) : Prop where
  globals : C.globals s.globals a
  wellFormed : ∀ p, A.WellFormed (s.process p)
  frames : ∀ p,
    List.Forall₂ (fun x f => C.frame p x.1 x.2 f) (s.process p).calls (a.stack (C.tid p))
  others : ∀ t, t ∉ Set.range C.tid → a.stack t = []

/-- Only the threads of the processes are there, with few frames each. -/
structure Fits (A : Algorithm Proc L G V) (C : Correspondence Proc L G V ι S F)
    (a : InterruptStack.State ι S F) : Prop where
  length : ∀ t, (a.stack t).length ≤ A.maxCalls
  others : ∀ t, t ∉ Set.range C.tid → a.stack t = []

/-- The frames of a thread whose calls can all be interrupted. -/
def Interrupted (A : Algorithm Proc L G V) (C : Correspondence Proc L G V ι S F) (p : Proc)
    (fs : List F) : Prop :=
  ∀ f ∈ fs, ∃ l v, A.Resumes l ∧ C.frame p l v f

/-- The code from `a` to `a'` follows a step at label `l` that goes on with `e`. -/
inductive Follows (C : Correspondence Proc L G V ι S F) (p : Proc) (l : L) (v : V)
    (a : InterruptStack.State ι S F) (fs : List F) (ls : List (Label ι B))
    (a' : InterruptStack.State ι S F) : Exit L → Prop
  | goto {l' : L} {f : F} {e : Exit L} (he : e = .goto l' ∨ e = .maybeSignal l')
      (hs : a'.stack = Function.update a.stack (C.tid p) (f :: fs)) (hf : C.frame p l' v f)
      (hrank : ls = [] → C.rank l' < C.rank l) : Follows C p l v a fs ls a' e
  | uEnd (hs : a'.stack = Function.update a.stack (C.tid p) fs) (hne : ls ≠ []) :
      Follows C p l v a fs ls a' .uEnd

/-- The code takes quiet steps to follow a step at label `l`, after which the variables are
`g` and `v` and the process goes on with `e`. -/
def Followed (C : Correspondence Proc L G V ι S F)
    (M : System (InterruptStack.State ι S F) (Label ι B)) (quiet : Label ι B → Bool) (p : Proc)
    (l : L) (g : G) (v : V) (a : InterruptStack.State ι S F) (fs : List F) (e : Exit L) : Prop :=
  ∃ ls a', Continues M quiet a ls a' ∧ C.globals g a' ∧ Follows C p l v a fs ls a' e

/-- The code can follow the algorithm: it starts like it, makes its calls and follows every
step, without `Err(Recursive)`. Its quiet steps come to an end, and they do not before all
calls have returned. -/
structure Simulates (A : Algorithm Proc L G V) (C : Correspondence Proc L G V ι S F)
    (M : System (InterruptStack.State ι S F) (Label ι B))
    (ok : InterruptStack.State ι S F → Label ι B → Prop) (quiet : Label ι B → Bool) : Prop where
  injective : Function.Injective C.tid
  initial : ∃ a, M.initial a ∧ C.globals A.globals a ∧ ∀ t, a.stack t = []
  call : ∀ p g a, Reach M ok a → Fits A C a → C.globals g a →
    Interrupted A C p (a.stack (C.tid p)) → ∃ a' f, Reach M ok a' ∧ C.globals g a' ∧
      a'.stack = Function.update a.stack (C.tid p) (f :: a.stack (C.tid p)) ∧
      C.frame p A.entry A.locals f
  step : ∀ p q l g v g' v' e f fs a, Reach M ok a → Fits A C a → C.globals g a →
    a.stack (C.tid p) = f :: fs → C.frame p l v f → Interrupted A C p fs →
    A.lockUnlock p q l g v = some (g', v', e) → Followed C M quiet p l g' v' a fs e
  allowed : ∀ a ls a', Reach M ok a → Fits A C a → Continues M quiet a ls a' → Reach M ok a'
  ends : ∀ a, Reach M ok a → Fits A C a → Acc (StepFrom M quiet) a
  live : ∀ g a, Reach M ok a → Fits A C a → C.globals g a →
    (∀ t f fs, a.stack t = f :: fs → ∃ p l v, C.tid p = t ∧ C.frame p l v f ∧
      Interrupted A C p fs ∧ ∀ q, A.lockUnlock p q l g v = none) →
    ∀ t, a.stack t = []

variable {A : Algorithm Proc L G V} {C : Correspondence Proc L G V ι S F}
variable {M : System (InterruptStack.State ι S F) (Label ι B)}
variable {ok : InterruptStack.State ι S F → Label ι B → Prop} {quiet : Label ι B → Bool}

omit [DecidableEq ι] in
theorem Related.fits {s : State Proc L G V} {a : InterruptStack.State ι S F}
    (h : Related A C s a) : Fits A C a := by
  refine ⟨fun t => ?_, h.others⟩
  by_cases ht : t ∈ Set.range C.tid
  · obtain ⟨p, rfl⟩ := ht
    rw [← (h.frames p).length_eq]
    exact (h.wellFormed p).length_calls
  · simp [h.others t ht]

omit [DecidableEq ι] in
theorem interrupted_of_resumes {p : Proc} {calls : List (L × V)} {fs : List F}
    (h : List.Forall₂ (fun x f => C.frame p x.1 x.2 f) calls fs)
    (hr : ∀ x ∈ calls, A.Resumes x.1) : Interrupted A C p fs := by
  induction h with
  | nil => simp [Interrupted]
  | @cons x f calls fs hx h ih =>
    intro f' hf'
    rcases List.mem_cons.mp hf' with rfl | hf'
    · exact ⟨x.1, x.2, hr x List.mem_cons_self, hx⟩
    · exact ih (fun y hy => hr y (List.mem_cons_of_mem _ hy)) f' hf'

omit [DecidableEq ι] in
/-- The quiet steps of a list lead away from `a`. -/
theorem transGen_of_continues {a a' : InterruptStack.State ι S F} {ls : List (Label ι B)}
    (h : Continues M quiet a ls a') (hne : ls ≠ []) :
    Relation.TransGen (StepFrom M quiet) a' a := by
  obtain ⟨hq, hr⟩ := h
  induction ls generalizing a with
  | nil => exact absurd rfl hne
  | cons l ls ih =>
    obtain ⟨a₁, hs, hr⟩ := Option.bind_eq_some_iff.mp hr
    have hone : StepFrom M quiet a₁ a := ⟨l, hq l List.mem_cons_self, hs⟩
    cases ls with
    | nil =>
      obtain rfl : a₁ = a' := by simpa [run] using hr
      exact .single hone
    | cons l' ls =>
      exact .tail (ih (by simp) (fun k hk => hq k (List.mem_cons_of_mem _ hk)) hr) hone

omit [DecidableEq ι] in
/-- Below the innermost call all calls can be interrupted. -/
theorem Related.resumes_below {s : State Proc L G V} {a : InterruptStack.State ι S F}
    (h : Related A C s a) {p : Proc} {l : L} (hpc : (s.process p).pc = .lockUnlock l) :
    ∀ x ∈ interrupted (s.process p).stack (s.process p).locals, A.Resumes x.1 := by
  have hw := h.wellFormed p
  generalize s.process p = q at hw hpc ⊢
  cases hw with
  | outside hout => rcases hout with rfl | rfl | rfl <;> simp at hpc
  | inside hn => exact hn.resumes _
  | signaled => simp at hpc
  | handled => simp at hpc

/-- The flag `b` tells whether some frame has the property `Q`. -/
def Flags (Q : F → Prop) (b : Bool) (a : InterruptStack.State ι S F) : Prop :=
  b = true ↔ ∃ t, ∃ f ∈ a.stack t, Q f

theorem Flags.put {Q : F → Prop} {b : Bool} {a : InterruptStack.State ι S F} (h : Flags Q b a)
    {t : ι} {s : S} {fs : List F} (hi : (∃ k ∈ fs, Q k) ↔ ∃ k ∈ a.stack t, Q k) :
    Flags Q b (a.put t s fs) := by
  refine h.trans ⟨?_, ?_⟩
  · refine exists_frame (t := t) (fun u hu => State.put_stack_ne _ _ _ hu) (fun _ h => h) ?_
    rw [State.put_stack_self]
    exact hi.mpr
  · refine exists_frame (t := t) (fun u hu => (State.put_stack_ne _ _ _ hu).symm)
      (fun _ h => h) ?_
    rw [State.put_stack_self]
    exact hi.mp

omit [DecidableEq ι] in
/-- The frames of a system that fits are few. -/
theorem Fits.mass_le [Fintype Proc] [DecidableEq ι] {a : InterruptStack.State ι S F}
    (h : Fits A C a) {w : F → ℕ} (hw : ∀ f, w f ≤ 1) :
    mass w a ≤ Fintype.card Proc * A.maxCalls := by
  have hsum (t : ι) : ((a.stack t).map w).sum ≤ A.maxCalls := by
    refine le_trans ?_ (h.length t)
    rw [← List.length_map w]
    refine List.sum_le_card_nsmul _ 1 (fun n hn => ?_) |>.trans (by simp)
    obtain ⟨f, -, rfl⟩ := List.mem_map.mp hn
    exact hw f
  have hsupport : (Function.support fun t => ((a.stack t).map w).sum) ⊆
      (Finset.univ.image C.tid : Finset ι) := by
    intro t ht
    by_contra hne
    refine ht ?_
    have hnil := h.others t (by simpa using hne)
    simp [hnil]
  unfold mass
  rw [finsum_eq_sum_of_support_subset _ hsupport]
  calc ∑ t ∈ Finset.univ.image C.tid, ((a.stack t).map w).sum
      ≤ (Finset.univ.image C.tid).card * A.maxCalls := by
        simpa using Finset.sum_le_card_nsmul _ _ _ fun t _ => hsum t
    _ ≤ Fintype.card Proc * A.maxCalls :=
        Nat.mul_le_mul_right _ (Finset.card_image_le.trans_eq Finset.card_univ)

/-- The actions of a frame, one after another. -/
def acts (P : Program ι S F B) (t : ι) : List B → S → F → Option (S × F)
  | [], g, f => some (g, f)
  | b :: bs, g, f => (P.act t b g f).bind fun r => acts P t bs r.1 r.2

theorem run_acts {P : Program ι S F B} (hM : M.next = InterruptStack.next P) {t : ι}
    {bs : List B} {a : InterruptStack.State ι S F} {g : S} {f f' : F} {fs : List F}
    (hs : a.stack t = f :: fs) (h : acts P t bs a.shared f = some (g, f')) :
    run M a (bs.map (.act t)) = some (a.put t g (f' :: fs)) := by
  induction bs generalizing a f with
  | nil =>
    obtain ⟨rfl, rfl⟩ := Prod.mk.inj (Option.some.inj h)
    rw [InterruptStack.State.put, ← hs, Function.update_eq_self]
    rfl
  | cons b bs ih =>
    obtain ⟨⟨g₁, f₁⟩, hb, h⟩ := Option.bind_eq_some_iff.mp h
    have hnext : M.next a (.act t b) = some (a.put t g₁ (f₁ :: fs)) := by
      rw [hM, next_act hs, hb]
      rfl
    rw [List.map_cons, run, hnext, Option.bind_some,
      ih (State.put_stack_self _ _ _ _) h, State.put_put]

/-- The frame of the call takes some actions. -/
theorem followed_acts {P : Program ι S F B} (hM : M.next = InterruptStack.next P) {p : Proc}
    {l l' : L} {g : G} {v : V} {a : InterruptStack.State ι S F} {s : S} {f k : F} {fs : List F}
    {e : Exit L} (bs : List B) (he : e = .goto l' ∨ e = .maybeSignal l')
    (hs : a.stack (C.tid p) = f :: fs) (h : acts P (C.tid p) bs a.shared f = some (s, k))
    (hq : ∀ b ∈ bs, quiet (.act (C.tid p) b) = true)
    (hg : C.globals g (a.put (C.tid p) s (k :: fs))) (hf : C.frame p l' v k)
    (hrank : bs = [] → C.rank l' < C.rank l) : Followed C M quiet p l g v a fs e := by
  refine ⟨_, _, ⟨by simpa using hq, run_acts hM hs h⟩, hg, .goto he rfl hf ?_⟩
  intro hnil
  exact hrank (List.map_eq_nil_iff.mp hnil)

theorem followed_act {P : Program ι S F B} (hM : M.next = InterruptStack.next P) {p : Proc}
    {l l' : L} {g : G} {v : V} {a : InterruptStack.State ι S F} {s : S} {f f' : F} {fs : List F}
    {e : Exit L} {b : B} (he : e = .goto l' ∨ e = .maybeSignal l')
    (hs : a.stack (C.tid p) = f :: fs) (h : P.act (C.tid p) b a.shared f = some (s, f'))
    (hq : quiet (.act (C.tid p) b) = true)
    (hg : C.globals g (a.put (C.tid p) s (f' :: fs))) (hf : C.frame p l' v f') :
    Followed C M quiet p l g v a fs e := by
  refine followed_acts hM [b] he hs (Option.bind_eq_some_iff.mpr ⟨_, h, rfl⟩) ?_ hg hf (by simp)
  simpa using hq

/-- The frame of the call waits, and only the label changes. -/
theorem followed_stay {p : Proc} {l l' : L} {g : G} {v : V} {a : InterruptStack.State ι S F}
    {f : F} {fs : List F} {e : Exit L} (he : e = .goto l' ∨ e = .maybeSignal l')
    (hs : a.stack (C.tid p) = f :: fs) (hg : C.globals g a) (hf : C.frame p l' v f)
    (hrank : C.rank l' < C.rank l) : Followed C M quiet p l g v a fs e := by
  refine ⟨[], a, ⟨by simp, rfl⟩, hg, .goto he ?_ hf fun _ => hrank⟩
  rw [← hs, Function.update_eq_self]

/-- The call returns, and with it the main code of the thread or the handler. -/
theorem followed_finish {P : Program ι S F B} (hM : M.next = InterruptStack.next P) {p : Proc}
    {l : L} {g : G} {v : V} {a : InterruptStack.State ι S F} {f : F} {fs : List F}
    (hs : a.stack (C.tid p) = f :: fs) (hf : P.returns f = true)
    (hq : quiet (.finish (C.tid p)) = true)
    (hg : C.globals g (a.put (C.tid p) a.shared fs)) :
    Followed C M quiet p l g v a fs .uEnd := by
  refine ⟨[.finish (C.tid p)], _, ⟨by simpa using hq, ?_⟩, hg, .uEnd rfl (by simp)⟩
  simp only [run, hM, InterruptStack.next, hs, hf, if_true, Option.bind_some]

/-- What goes down in a step of the algorithm: the budget of the process, or the code moves
on, or the rank of the process where neither changes. -/
inductive Progress (A : Algorithm Proc L G V) (C : Correspondence Proc L G V ι S F)
    (M : System (InterruptStack.State ι S F) (Label ι B)) (quiet : Label ι B → Bool)
    (p p' : Process L V) (a a' : InterruptStack.State ι S F) : Prop
  | call (hb : A.budget p' < A.budget p)
  | code (hb : A.budget p' ≤ A.budget p) (ha : Relation.TransGen (StepFrom M quiet) a' a)
  | rank (hb : A.budget p' ≤ A.budget p) (ha : a' = a) (hr : p'.rank C.rank < p.rank C.rank)

variable [DecidableEq Proc]

/-- The process changes together with the frames of its thread. -/
theorem Related.put {s : State Proc L G V} {a a' : InterruptStack.State ι S F}
    (hC : Function.Injective C.tid) (h : Related A C s a) {p : Proc} {g' : G}
    {p' : Process L V} {fs : List F} (hg : C.globals g' a') (hw : A.WellFormed p')
    (hs : a'.stack = Function.update a.stack (C.tid p) fs)
    (hf : List.Forall₂ (fun x f => C.frame p x.1 x.2 f) p'.calls fs) :
    Related A C ⟨g', Function.update s.process p p'⟩ a' := by
  refine ⟨hg, fun q => ?_, fun q => ?_, fun t ht => ?_⟩
  · by_cases hq : q = p
    · subst hq
      simpa using hw
    · simpa [hq] using h.wellFormed q
  · rw [hs]
    by_cases hq : q = p
    · subst hq
      simpa using hf
    · simpa [hq, hC.ne hq] using h.frames q
  · rw [hs, Function.update_of_ne (fun he => ht ⟨p, he.symm⟩)]
    exact h.others t ht

/-- The code follows one step of the algorithm. -/
theorem Simulates.related_next (hC : Simulates A C M ok quiet) {s s' : State Proc L G V}
    {a : InterruptStack.State ι S F} {c : Choice Proc} (hr : Reach M ok a)
    (h : Related A C s a) (hs : A.system.next s c = some s') :
    ∃ a', Reach M ok a' ∧ Related A C s' a' ∧
      (∀ q, q ≠ c.self → s'.process q = s.process q) ∧
      Progress A C M quiet (s.process c.self) (s'.process c.self) a a' := by
  obtain ⟨⟨g', p'⟩, hstep, rfl⟩ := Option.map_eq_some_iff.mp hs
  simp only [Function.update_self]
  have hothers : ∀ q, q ≠ c.self → Function.update s.process c.self p' q = s.process q :=
    fun q hq => Function.update_of_ne hq _ _
  obtain ⟨hw, heffect⟩ := (h.wellFormed c.self).step (r := C.rank) hstep
  have hframes := h.frames c.self
  cases heffect with
  | call hg hp hres hb =>
    obtain ⟨a', f, hr', hg', hs', hf⟩ :=
      hC.call _ _ _ hr h.fits h.globals (interrupted_of_resumes hframes hres)
    refine ⟨a', hr', h.put hC.injective (hg ▸ hg') hw hs' ?_, hothers, .call hb⟩
    rw [hp]
    exact .cons hf hframes
  | silent hg hp hb hrank =>
    refine ⟨a, hr, h.put hC.injective (hg ▸ h.globals) hw (Function.update_eq_self _ _).symm ?_,
      hothers, .rank hb.le rfl hrank⟩
    rw [hp]
    exact hframes
  | @goto l l' v v' rest e he hp hres hl hp' hb hrank =>
    rw [hp] at hframes
    obtain ⟨f, fs, hf, hfs, hstack⟩ := List.forall₂_cons_left_iff.mp hframes
    obtain ⟨ls, a', hrun, hg', hfollows⟩ := hC.step _ _ _ _ _ _ _ _ _ _ _ hr h.fits
      h.globals hstack hf (interrupted_of_resumes hfs hres) hl
    have hr' := hC.allowed a ls a' hr h.fits hrun
    cases hfollows with
    | @goto l₁ f' e he' hs' hf' hr₁ =>
      obtain rfl : l' = l₁ := by rcases he with rfl | rfl <;> simpa using he'
      refine ⟨a', hr', h.put hC.injective hg' hw hs' ?_, hothers, ?_⟩
      · rw [hp']
        exact .cons hf' hfs
      · by_cases hne : ls = []
        · subst hne
          exact .rank hb.le (by simpa [run] using hrun.2.symm) (hrank (hr₁ rfl))
        · exact .code hb.le (transGen_of_continues hrun hne)
    | uEnd => simp at he
  | @recursive l v v' rest hp hres hl =>
    rw [hp] at hframes
    obtain ⟨f, fs, hf, hfs, hstack⟩ := List.forall₂_cons_left_iff.mp hframes
    obtain ⟨ls, a', -, -, hfollows⟩ := hC.step _ _ _ _ _ _ _ _ _ _ _ hr h.fits
      h.globals hstack hf (interrupted_of_resumes hfs hres) hl
    cases hfollows with
    | goto he => simp at he
  | @uEnd l v v' rest hp hres hl hp' hb =>
    rw [hp] at hframes
    obtain ⟨f, fs, hf, hfs, hstack⟩ := List.forall₂_cons_left_iff.mp hframes
    obtain ⟨ls, a', hrun, hg', hfollows⟩ := hC.step _ _ _ _ _ _ _ _ _ _ _ hr h.fits
      h.globals hstack hf (interrupted_of_resumes hfs hres) hl
    have hr' := hC.allowed a ls a' hr h.fits hrun
    cases hfollows with
    | goto he => simp at he
    | uEnd hs' hne =>
      refine ⟨a', hr', h.put hC.injective hg' hw hs' ?_, hothers,
        .code hb (transGen_of_continues hrun hne)⟩
      rw [hp']
      exact hfs

theorem Simulates.exists_related (hC : Simulates A C M ok quiet) {s : State Proc L G V}
    (h : Reach A.system anyStep s) : ∃ a, Reach M ok a ∧ Related A C s a := by
  refine h.invariant (I := fun s => ∃ a, Reach M ok a ∧ Related A C s a) ?_ ?_
  · rintro s rfl
    obtain ⟨a, ha, hg, hstack⟩ := hC.initial
    refine ⟨a, .initial ha, hg, A.wellFormed_init, fun p => ?_, fun t _ => hstack t⟩
    rw [hstack]
    exact .nil
  · rintro s c s' _ ⟨a, hr, hrel⟩ _ hs
    obtain ⟨a', hr', hrel', -, -⟩ := hC.related_next hr hrel hs
    exact ⟨a', hr', hrel'⟩

section Termination

variable [Fintype Proc]

theorem sum_le_of_process {s s' : State Proc L G V} {p : Proc} {w : Process L V → ℕ}
    (hothers : ∀ q, q ≠ p → s'.process q = s.process q)
    (h : w (s'.process p) ≤ w (s.process p)) :
    ∑ q, w (s'.process q) ≤ ∑ q, w (s.process q) := by
  refine Finset.sum_le_sum fun q _ => ?_
  by_cases hq : q = p
  · subst hq
    exact h
  · rw [hothers q hq]

theorem sum_lt_of_process {s s' : State Proc L G V} {p : Proc} {w : Process L V → ℕ}
    (hothers : ∀ q, q ≠ p → s'.process q = s.process q)
    (h : w (s'.process p) < w (s.process p)) :
    ∑ q, w (s'.process q) < ∑ q, w (s.process q) := by
  refine Finset.sum_lt_sum (fun q _ => ?_) ⟨p, Finset.mem_univ p, h⟩
  by_cases hq : q = p
  · subst hq
    exact h.le
  · rw [hothers q hq]

/-- By induction on the calls still to make, on what the code does before the next of them,
and on the steps before the code does anything. -/
theorem Simulates.terminates (hC : Simulates A C M ok quiet) {s : State Proc L G V}
    {a : InterruptStack.State ι S F} (hr : Reach M ok a) (h : Related A C s a) :
    Terminates A.system s := by
  obtain ⟨n, hn⟩ : ∃ n, ∑ q, A.budget (s.process q) ≤ n := ⟨_, le_refl _⟩
  induction n using Nat.strong_induction_on generalizing s a with
  | _ n ihn =>
    have hacc := (hC.ends a hr h.fits).transGen
    induction hacc generalizing s with
    | intro a _ iha =>
      obtain ⟨k, hk⟩ : ∃ k, ∑ q, (s.process q).rank C.rank ≤ k := ⟨_, le_refl _⟩
      induction k using Nat.strong_induction_on generalizing s with
      | _ k ihk =>
        refine .intro s ?_
        rintro s' ⟨c, hs⟩
        obtain ⟨a', hr', h', hothers, hprogress⟩ := hC.related_next hr h hs
        cases hprogress with
        | call hb =>
          have hlt := sum_lt_of_process (w := A.budget) hothers hb
          exact ihn _ (hlt.trans_le hn) hr' h' le_rfl
        | code hb ha =>
          have hle := sum_le_of_process (w := A.budget) hothers hb
          exact iha a' ha hr' h' (hle.trans hn)
        | rank hb ha hrank =>
          subst ha
          have hle := sum_le_of_process (w := A.budget) hothers hb
          have hlt := sum_lt_of_process (w := Process.rank C.rank) hothers hrank
          exact ihk _ (hlt.trans_le hk) h' (hle.trans hn) le_rfl

end Termination

omit [DecidableEq Proc] in
/-- A process that cannot step is done, or its innermost call is blocked. -/
theorem Algorithm.WellFormed.blocked {p : Process L V} (h : A.WellFormed p) (self : Proc) (g : G)
    (hstuck : ∀ q, A.step ⟨self, false, q⟩ g p = none) :
    p.pc = .done ∧ p.calls = [] ∨
      ∃ l v rest, p.calls = (l, v) :: rest ∧ (∀ x ∈ rest, A.Resumes x.1) ∧
        ∀ q, A.lockUnlock self q l g v = none := by
  cases h with
  | @outside pc v i hpc =>
    have hnone := hstuck none
    rcases hpc with rfl | rfl | rfl
    · simp only [Algorithm.step] at hnone
      split_ifs at hnone
    · simp [Algorithm.step] at hnone
    · exact .inl ⟨rfl, rfl⟩
  | @inside l stack v i d hn =>
    refine .inr ⟨l, v, _, rfl, hn.resumes v, fun q => ?_⟩
    have hnone := hstuck q
    simp only [Algorithm.step, Option.bind_eq_none_iff, Option.map_eq_none_iff] at hnone
    by_contra hne
    obtain ⟨⟨g', v', e⟩, hl⟩ := Option.ne_none_iff_exists'.mp hne
    have hexit := hnone _ hl
    cases e with
    | goto l' => simp [Algorithm.exit] at hexit
    | maybeSignal l' => simp [Algorithm.exit] at hexit
    | recursive =>
      obtain ⟨q', hq, -⟩ := hn.ret (l := l) (i := i) (v := v')
      simp only [Algorithm.exit, hq, reduceCtorEq] at hexit
    | uEnd =>
      obtain ⟨q', hq, -⟩ := hn.ret (l := l) (i := if 0 < i then i - 1 else i) (v := v')
      simp only [Algorithm.exit, hq, reduceCtorEq] at hexit
  | signaled => simpa [Algorithm.step] using hstuck none
  | handled => simpa [Algorithm.step] using hstuck none

/-- Where no process can step, all are done. -/
theorem Simulates.done_of_stuck (hC : Simulates A C M ok quiet) {s : State Proc L G V}
    {a : InterruptStack.State ι S F} (hr : Reach M ok a) (h : Related A C s a)
    (hstuck : ∀ c, A.system.next s c = none) (p : Proc) : (s.process p).pc = .done := by
  have hblocked (p : Proc) := (h.wellFormed p).blocked p s.globals fun q => by
    simpa [Algorithm.system] using hstuck ⟨p, false, q⟩
  have hempty : ∀ t, a.stack t = [] := by
    refine hC.live s.globals a hr h.fits h.globals fun t f fs hs => ?_
    by_cases ht : t ∈ Set.range C.tid
    · obtain ⟨p, rfl⟩ := ht
      have hframes := h.frames p
      rw [hs] at hframes
      rcases hblocked p with ⟨-, hcalls⟩ | ⟨l, v, rest, hcalls, hres, hnone⟩
      · rw [hcalls] at hframes
        cases hframes
      · rw [hcalls] at hframes
        obtain ⟨hf, hfs⟩ := List.forall₂_cons.mp hframes
        exact ⟨p, l, v, rfl, hf, interrupted_of_resumes hfs hres, hnone⟩
    · simp [h.others t ht] at hs
  rcases hblocked p with ⟨hpc, -⟩ | ⟨l, v, rest, hcalls, -, -⟩
  · exact hpc
  · have hframes := h.frames p
    rw [hcalls, hempty] at hframes
    cases hframes

/-- `Termination`: in a fair behavior all processes are done some time. -/
theorem Simulates.eventually_done [Fintype Proc] (hC : Simulates A C M ok quiet)
    {e : ℕ → State Proc L G V} (he : Behavior A.system e) (hfair : WeaklyFair A.system e) :
    ∃ n, ∀ p, ((e n).process p).pc = .done := by
  refine he.eventually (Q := fun s => ∀ p, (s.process p).pc = .done) hfair ?_ ?_
  · intro s hs
    obtain ⟨a, hr, h⟩ := hC.exists_related hs
    exact hC.terminates hr h
  · intro s hs hstuck
    obtain ⟨a, hr, h⟩ := hC.exists_related hs
    exact hC.done_of_stuck hr h hstuck

end SignalCrates.MutexAlgorithm
