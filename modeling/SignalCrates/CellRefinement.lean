import SignalCrates.InterruptStack
import SignalCrates.ExclusiveCell

/-!
# Locks that refine the exclusive cell

A lock on an interrupt stack is described by the guards its frames hold and by what
its memory says about the owner. If every action keeps the guards, or acquires, uses
or releases one as the cell does, then the lock refines the cell.
-/
namespace SignalCrates.CellRefinement
open TransitionSystem InterruptStack ExclusiveCell

/-- Where the guards, the cell and the owner are found in the frames and the memory. -/
structure View (ι S F G T : Type*) where
  held : F → List G
  tid : G → ι
  body : G → Section T
  cell : S → Cell T
  free : S → Prop
  heldBy : ι → S → Prop
  not_free : ∀ t g, heldBy t g → ¬ free g

variable {ι S F A G T : Type*}

/-- The memory names the same owner, or none, as before. -/
structure View.Same (V : View ι S F G T) (g g' : S) : Prop where
  free : V.free g → V.free g'
  heldBy : ∀ t, V.heldBy t g → V.heldBy t g'

theorem View.Same.refl (V : View ι S F G T) (g : S) : V.Same g g := ⟨id, fun _ => id⟩

/-- The four ways in which an action of thread `t` may treat the guards. -/
inductive Effect (V : View ι S F G T) (t : ι) (g : S) (f : F) (g' : S) (f' : F) : Prop
  | keep (hf : V.held f' = V.held f) (hc : V.cell g' = V.cell g) (hs : V.Same g g')
  | acquire (u : T → T) (r : G) (hf : V.held f' = r :: V.held f) (ht : V.tid r = t)
      (hb : V.body r = .enter u) (hc : V.cell g' = (V.cell g).acquire u) (hfree : V.free g)
      (hby : V.heldBy t g')
  | access (a : Access) (r r' : G) (rs : List G) (hf : V.held f = r :: rs)
      (hf' : V.held f' = r' :: rs) (ht : V.tid r' = V.tid r)
      (ha : (V.body r).access (V.cell g) a = some (V.cell g', V.body r')) (hs : V.Same g g')
  | release (r : G) (rs : List G) (hf : V.held f = r :: rs) (hf' : V.held f' = rs)
      (hc : V.cell g' = V.cell g) (hfree : V.free g')

/-- The owner of the cell is the thread that has the only live guard. -/
def Represents (V : View ι S F G T) (s : State ι S F) (a : ExclusiveCell.State ι T) : Prop :=
  a.cell = V.cell s.shared ∧
    match a.owner with
    | none => V.free s.shared ∧ Sole (live V.held s) none
    | some (t, k) => V.heldBy t s.shared ∧
        ∃ r, V.tid r = t ∧ V.body r = k ∧ Sole (live V.held s) (some (t, r))

section Facts
variable {V : View ι S F G T} {s : State ι S F} {a : ExclusiveCell.State ι T}

theorem Represents.sole (h : Represents V s a) : ∃ o, Sole (live V.held s) o := by
  obtain ⟨-, h⟩ := h
  cases ho : a.owner with
  | none =>
    rw [ho] at h
    exact ⟨_, h.2⟩
  | some p =>
    rw [ho] at h
    obtain ⟨-, r, -, -, hsole⟩ := h
    exact ⟨_, hsole⟩

theorem Represents.owner_of_free (h : Represents V s a) (hfree : V.free s.shared) :
    a.owner = none := by
  obtain ⟨-, h⟩ := h
  cases ho : a.owner with
  | none => rfl
  | some p =>
    rw [ho] at h
    exact absurd hfree (V.not_free _ _ h.1)

theorem Represents.free_iff (h : Represents V s a) :
    V.free s.shared ↔ ∀ t, live V.held s t = [] := by
  constructor
  · intro hfree
    have ho := h.owner_of_free hfree
    obtain ⟨-, h⟩ := h
    rw [ho] at h
    exact h.2
  · intro hl
    obtain ⟨-, h⟩ := h
    cases ho : a.owner with
    | none =>
      rw [ho] at h
      exact h.1
    | some p =>
      rw [ho] at h
      obtain ⟨-, r, -, -, hsole⟩ := h
      exact absurd (hsole.1.symm.trans (hl p.1)) (List.cons_ne_nil _ _)

/-- A lock that is not free is held by some thread with a live guard. -/
theorem Represents.exists_heldBy (h : Represents V s a) (hfree : ¬ V.free s.shared) :
    ∃ t, V.heldBy t s.shared ∧ live V.held s t ≠ [] := by
  obtain ⟨-, h⟩ := h
  cases ho : a.owner with
  | none =>
    rw [ho] at h
    exact absurd h.1 hfree
  | some p =>
    rw [ho] at h
    obtain ⟨hby, r, -, -, hsole⟩ := h
    exact ⟨p.1, hby, by rw [hsole.1]; exact List.cons_ne_nil _ _⟩

theorem Represents.keep {s' : State ι S F} (h : Represents V s a)
    (hc : V.cell s'.shared = V.cell s.shared) (hs : V.Same s.shared s'.shared)
    (hl : ∀ t, live V.held s' t = live V.held s t) : Represents V s' a := by
  obtain ⟨hcell, h⟩ := h
  refine ⟨hcell.trans hc.symm, ?_⟩
  cases ho : a.owner with
  | none =>
    rw [ho] at h
    exact ⟨hs.free h.1, h.2.congr hl⟩
  | some p =>
    rw [ho] at h
    obtain ⟨hby, r, htid, hbody, hsole⟩ := h
    exact ⟨hs.heldBy _ hby, r, htid, hbody, hsole.congr hl⟩

variable [DecidableEq ι]

theorem Represents.of_live (h : Represents V s a) {t : ι} {r : G} {rs : List G}
    (ht : live V.held s t = r :: rs) :
    a.owner = some (t, V.body r) ∧ V.tid r = t ∧ V.heldBy t s.shared := by
  obtain ⟨-, h⟩ := h
  cases ho : a.owner with
  | none =>
    rw [ho] at h
    cases (h.2.of_cons ht).1
  | some p =>
    rw [ho] at h
    obtain ⟨hby, r', htid, hbody, hsole⟩ := h
    obtain ⟨he, -⟩ := hsole.of_cons ht
    simp only [Option.some.injEq, Prod.mk.injEq] at he
    obtain ⟨rfl, rfl⟩ := he
    exact ⟨by rw [hbody], htid, hby⟩

/-- A guard at hand belongs to the thread that runs, and the memory says so. -/
theorem Represents.of_frame (h : Represents V s a) {t : ι} {f : F} {fs : List F} {r : G}
    {rs : List G} (hs : s.stack t = f :: fs) (hf : V.held f = r :: rs) :
    a.owner = some (t, V.body r) ∧ V.tid r = t ∧ V.heldBy t s.shared := by
  have hlive : live V.held s t = r :: (rs ++ fs.flatMap V.held) := by
    rw [live, hs, List.flatMap_cons, hf, List.cons_append]
  exact h.of_live hlive

theorem Represents.heldBy (h : Represents V s a) {t : ι} (ht : live V.held s t ≠ []) :
    V.heldBy t s.shared := by
  obtain ⟨r, rs, hr⟩ := List.exists_cons_of_ne_nil ht
  exact (h.of_live hr).2.2

end Facts

section Refinement
variable [DecidableEq ι]

/-- The conditions on one lock's code from which the refinement follows. -/
structure Refines (P : Program ι S F A) (V : View ι S F G T) (initial : State ι S F → Prop)
    (ok : State ι S F → Label ι A → Prop) (x : T) : Prop where
  conserves : Conserves P V.held
  start : ∀ s, initial s → V.cell s.shared = ⟨x, []⟩ ∧ V.free s.shared ∧ ∀ t, s.stack t = []
  deliver : ∀ t g f, V.cell (P.deliver t g f).1 = V.cell g ∧ V.Same g (P.deliver t g f).1
  act : ∀ s t a f fs g' f', Reach ⟨initial, InterruptStack.next P⟩ ok s →
    s.stack t = f :: fs → P.act t a s.shared f = some (g', f') → Effect V t s.shared f g' f'

/-- A step that gives a guard up does so at the end of its critical section. -/
def FinishesSection (P : Program ι S F A) (V : View ι S F G T) (s : State ι S F)
    (l : Label ι A) : Prop :=
  ∀ t a f fs g' f' r rs, l = .act t a → s.stack t = f :: fs →
    P.act t a s.shared f = some (g', f') → V.held f = r :: rs → V.held f' = rs →
    (V.body r).finished

variable {P : Program ι S F A} {V : View ι S F G T} {initial : State ι S F → Prop}
  {ok : State ι S F → Label ι A → Prop} {x : T}

/-- Every step of the lock is a step of the exclusive cell, or leaves the cell alone. -/
theorem represents_next (hP : Refines P V initial ok x) {s s' : State ι S F} {l : Label ι A}
    {a : ExclusiveCell.State ι T} (hr : Reach ⟨initial, InterruptStack.next P⟩ ok s)
    (h : Represents V s a) (hn : InterruptStack.next P s l = some s') :
    Represents V s' a ∨ ∃ e a', ExclusiveCell.next a e = some a' ∧ Represents V s' a' ∧
      (FinishesSection P V s l → complete a e) := by
  rcases hP.conserves.live_next hn with ⟨hl, hact⟩ | ⟨t, b, f, fs, g', f', rfl, hs, ha, rfl⟩
  · left
    rcases shared_next hn hact with he | ⟨t, f, he⟩
    · exact h.keep (by rw [he]) (by rw [he]; exact .refl V _) hl
    · obtain ⟨hc, hsame⟩ := hP.deliver t s.shared f
      exact h.keep (by rw [he, hc]) (by rw [he]; exact hsame) hl
  · cases hP.act s t b f fs g' f' hr hs ha with
    | keep hf hc hsame => exact .inl (h.keep hc hsame (live_put_eq g' hs hf))
    | acquire u r hf ht hb hc hfree hby =>
      have ho := h.owner_of_free hfree
      obtain ⟨hcell, h⟩ := h
      rw [ho] at h
      refine .inr ⟨.acquire t u, ⟨some (t, .enter u), a.cell.acquire u⟩,
        by rw [ExclusiveCell.next, ho], ⟨?_, hby, r, ht, hb, h.2.take hs hf⟩, fun _ => trivial⟩
      rw [hcell, State.put_shared, hc]
    | access b r r' rs hf hf' ht hk hsame =>
      obtain ⟨ho, htid, hby⟩ := h.of_frame hs hf
      obtain ⟨o, hsole⟩ := h.sole
      refine .inr ⟨.access b, ⟨some (t, V.body r'), V.cell g'⟩, ?_,
        ⟨rfl, hsame.heldBy t hby, r', ht.trans htid, rfl, hsole.change hs hf hf'⟩,
        fun _ => trivial⟩
      simp only [ExclusiveCell.next, ho, h.1, hk, Option.map_some]
    | release r rs hf hf' hc hfree =>
      obtain ⟨ho, -, -⟩ := h.of_frame hs hf
      obtain ⟨o, hsole⟩ := h.sole
      refine .inr ⟨.release, ⟨none, a.cell⟩, by rw [ExclusiveCell.next, ho],
        ⟨h.1.trans hc.symm, hfree, hsole.drop hs hf hf'⟩, ?_⟩
      intro hd p hp
      obtain rfl := Option.some.inj (ho.symm.trans hp)
      exact hd t b f fs g' f' r rs rfl hs ha hf hf'

/-- The lock refines the cell; guards given up at the end of their sections are
complete sections of the cell. -/
theorem refines_cell (hP : Refines P V initial ok x)
    {ok' : ExclusiveCell.State ι T → Event ι T → Prop}
    (hok : ∀ s l a e, ok s l → (FinishesSection P V s l → complete a e) → ok' a e)
    {s : State ι S F} (h : Reach ⟨initial, InterruptStack.next P⟩ ok s) :
    ∃ a, Reach (ExclusiveCell.system ι x) ok' a ∧ Represents V s a := by
  refine h.simulation ?_ ?_
  · intro s hs
    obtain ⟨hc, hfree, hstack⟩ := hP.start s hs
    refine ⟨⟨none, ⟨x, []⟩⟩, rfl, hc.symm, hfree, fun t => ?_⟩
    rw [live, hstack t]
    rfl
  · intro s l s' a hr hR hl hn
    rcases represents_next hP hr hR hn with h' | ⟨e, a', ha, hR', hc⟩
    · exact .inl h'
    · exact .inr ⟨e, a', hok s l a e hl hc, ha, hR'⟩

theorem represented (hP : Refines P V initial ok x) {s : State ι S F}
    (h : Reach ⟨initial, InterruptStack.next P⟩ ok s) : ∃ a, Represents V s a := by
  have hok : ∀ s l a e, ok s l → (FinishesSection P V s l → complete a e) →
      anyStep (σ := ExclusiveCell.State ι T) (α := Event ι T) a e := fun _ _ _ _ _ _ => trivial
  obtain ⟨a, -, hR⟩ := refines_cell hP hok h
  exact ⟨a, hR⟩

/-- While no guard is live the item is the composition of the updates. -/
theorem item_eq_replay (hP : Refines P V initial ok x)
    (hok : ∀ s l, ok s l → FinishesSection P V s l) {s : State ι S F}
    (h : Reach ⟨initial, InterruptStack.next P⟩ ok s) (hfree : ∀ t, live V.held s t = []) :
    (V.cell s.shared).item = replay x (V.cell s.shared).history := by
  obtain ⟨a, ha, hR⟩ := refines_cell hP (fun s l _ _ hl hc => hc (hok s l hl)) h
  have hc := consistent_of_reach ha
  rwa [Consistent, hR.owner_of_free (hR.free_iff.mpr hfree), hR.1] at hc

end Refinement

end SignalCrates.CellRefinement
