import SignalCrates.FutexLock
import SignalCrates.CellRefinement

/-!
# FutexLock refines the exclusive cell

The owner of the abstract cell is the thread whose stack carries the only live guard,
and the word is that thread's tid with or without the waiters bit.
-/
namespace SignalCrates.FutexLock
open SignalLock TransitionSystem InterruptStack ExclusiveCell CellRefinement FutexWord

variable {T : Type*}

/-- The locals of a frame of thread `t`: its own tid, and words fit for the operation. -/
def Pc.Sound (t : Tid) : Pc → Prop
  | .rawLock tid => tid = t
  | .acquire tid => tid = t
  | .setWaiters tid word => tid = t ∧ word ≠ 0
  | .wait tid word => tid = t ∧ word &&& FUTEX_WAITERS ≠ 0
  | .waiting tid => tid = t
  | .reload tid => tid = t
  | _ => True

theorem rawLockContended_sound (t : Tid) (w : Word) : (rawLockContended t w).Sound t := by
  unfold rawLockContended
  split_ifs with h₁ h₂ h₃
  · trivial
  · rfl
  · exact ⟨rfl, h₂⟩
  · exact ⟨rfl, h₃⟩

theorem rawUnlock_sound (t tid : Tid) (w : Word) : (rawUnlock tid w).Sound t := by
  unfold rawUnlock
  split_ifs <;> trivial

/-- A frame keeps the tid that it carries, or begins a call under that of its thread. -/
theorem Acts.sound_or {t c : Tid} {a : Action T} {s s' : Shared T} {f f' : Frame T}
    (h : Acts t s a f s' f') (hf : f.pc.Sound c) : f'.pc.Sound c ∨ f'.pc.Sound t := by
  cases h with
  | lock => exact .inr rfl
  | setWaiters _ => exact .inl ⟨hf.1, or_waiters_and_waiters _⟩
  | sleep _ => exact .inl hf.1
  | eagain _ => exact .inl hf.1
  | woken _ => exact .inl hf
  | spuriousWake => exact .inl hf
  | contend => obtain rfl := hf; exact .inl (rawLockContended_sound _ _)
  | loseAcquire => obtain rfl := hf; exact .inl (rawLockContended_sound _ _)
  | loseWaiters => obtain ⟨rfl, -⟩ := hf; exact .inl (rawLockContended_sound _ _)
  | load => obtain rfl := hf; exact .inl (rawLockContended_sound _ _)
  | drop => exact .inl (rawUnlock_sound c _ _)
  | take _ => exact .inl trivial
  | takeContended _ => exact .inl trivial
  | ret => exact .inl trivial
  | access _ => exact .inl trivial
  | wakeNone _ => exact .inl trivial
  | wakeSome _ => exact .inl trivial

theorem Acts.sound {t : Tid} {a : Action T} {s s' : Shared T} {f f' : Frame T}
    (h : Acts t s a f s' f') (hf : f.pc.Sound t) : f'.pc.Sound t := (h.sound_or hf).elim id id

theorem sound_of_reach {x : T} {ok : World T → Label Tid (Action T) → Prop} {s : World T}
    (h : Reach (system x) ok s) (t : Tid) : Layered (fun f _ => f.pc.Sound t) (s.stack t) := by
  refine layered_of_reach (Q := fun t f _ => f.pc.Sound t) h ?_ (fun _ _ => trivial)
    (fun _ _ _ _ h => h) ?_ ?_ t
  · rintro s rfl t
    rfl
  · exact fun s t a f fs g' f' _ _ ha hf => (act_cases ha).sound hf
  · rintro s t f f₀ fs f' f₀' - hh - hf₀
    obtain ⟨gs, rfl, rfl, rfl⟩ := handOut_cases hh
    exact ⟨trivial, hf₀⟩

theorem validTid_of_reach {x : T} {ok : World T → Label Tid (Action T) → Prop} {s : World T}
    (h : Reach (system x) ok s) {t : Tid} (ht : s.stack t ≠ []) : validTid t = true := by
  refine h.invariant (I := fun s => ∀ t, s.stack t ≠ [] → validTid t = true) ?_ ?_ t ht
  · rintro s rfl t ht
    exact absurd rfl ht
  · exact fun s a s' _ hI _ hn => starts_next (P := program T) hn hI

/-- The word of a lock whose guard thread `t` owns. -/
def OwnedBy (t : Tid) (s : Shared T) : Prop := validTid t = true ∧ HeldBy t s.word

def view : View Tid (Shared T) (Frame T) (FutexLockGuard T) T where
  held := Frame.guards
  tid := FutexLockGuard.tid
  body := FutexLockGuard.body
  cell := Shared.cell
  free s := s.word = 0
  heldBy := OwnedBy
  not_free _ _ h := h.2.ne_zero h.1

/-- Setting the waiters bit of a word that is not 0 keeps its owner. -/
theorem same_setWaiters {s : Shared T} (hw : s.word ≠ 0) :
    view.Same s { s with word := s.word ||| FUTEX_WAITERS } where
  free h := absurd h hw
  heldBy _ h := ⟨h.1, h.2.or_waiters⟩

theorem Acts.effect {t c : Tid} {a : Action T} {s s' : Shared T} {f f' : Frame T}
    (h : Acts t s a f s' f') (hf : f.pc.Sound c) (ht : validTid c = true) :
    Effect view c s f s' f' := by
  cases h with
  | @take _ u tid _ hw =>
    obtain rfl := hf
    exact .acquire u ⟨_, .enter u⟩ rfl rfl rfl rfl hw ⟨ht, .inl rfl⟩
  | @takeContended _ u tid _ hw =>
    obtain rfl := hf
    exact .acquire u ⟨_, .enter u⟩ rfl rfl rfl rfl hw ⟨ht, .inr rfl⟩
  | @access a g gs _ k hk => exact .access a g ⟨g.tid, k⟩ gs rfl rfl rfl hk ⟨id, fun _ => id⟩
  | @drop g gs => exact .release g gs rfl rfl rfl rfl
  | setWaiters hw =>
    subst hw
    exact .keep rfl rfl (same_setWaiters hf.2)
  | lock => exact .keep rfl rfl (.refl _ _)
  | contend => exact .keep rfl rfl (.refl _ _)
  | loseAcquire => exact .keep rfl rfl (.refl _ _)
  | loseWaiters => exact .keep rfl rfl (.refl _ _)
  | sleep _ => exact .keep rfl rfl ⟨id, fun _ => id⟩
  | eagain _ => exact .keep rfl rfl (.refl _ _)
  | woken _ => exact .keep rfl rfl (.refl _ _)
  | spuriousWake => exact .keep rfl rfl ⟨id, fun _ => id⟩
  | load => exact .keep rfl rfl (.refl _ _)
  | ret => exact .keep rfl rfl (.refl _ _)
  | wakeNone _ => exact .keep rfl rfl (.refl _ _)
  | wakeSome _ => exact .keep rfl rfl ⟨id, fun _ => id⟩

theorem refines (x : T) (ok : World T → Label Tid (Action T) → Prop) :
    Refines (program T) view (system x).initial ok x where
  conserves := conserves
  start := by
    rintro s rfl
    exact ⟨rfl, rfl, fun _ => rfl⟩
  deliver _ _ _ := ⟨rfl, id, fun _ => id⟩
  act := by
    intro s t a f fs g' f' hr hs ha
    have hlocal := sound_of_reach (x := x) hr t
    rw [hs] at hlocal
    exact (act_cases ha).effect hlocal.1 (validTid_of_reach (x := x) hr (by simp [hs]))

section Owner
variable {x : T} {ok : World T → Label Tid (Action T) → Prop} {s : World T}

theorem word_eq_zero_iff (h : Reach (system x) ok s) :
    s.shared.word = 0 ↔ ∀ t, guards s t = [] := by
  obtain ⟨a, hR⟩ := represented (refines x ok) h
  exact hR.free_iff

theorem ownedBy_of_guards (h : Reach (system x) ok s) {t : Tid} (ht : guards s t ≠ []) :
    OwnedBy t s.shared := by
  obtain ⟨a, hR⟩ := represented (refines x ok) h
  exact hR.heldBy ht

/-- A guard at hand belongs to the thread that runs, and the word is that thread's. -/
theorem of_guard (h : Reach (system x) ok s) {t : Tid} {f : Frame T} {fs : List (Frame T)}
    {g : FutexLockGuard T} {gs : List (FutexLockGuard T)} (hs : s.stack t = f :: fs)
    (hf : f.guards = g :: gs) : g.tid = t ∧ OwnedBy t s.shared := by
  obtain ⟨a, hR⟩ := represented (refines x ok) h
  exact (hR.of_frame hs hf).2

theorem exists_ownedBy (h : Reach (system x) ok s) (hw : s.shared.word ≠ 0) :
    ∃ t, OwnedBy t s.shared ∧ guards s t ≠ [] := by
  obtain ⟨a, hR⟩ := represented (refines x ok) h
  exact hR.exists_heldBy hw

/-- The word names the thread that owns the guard, and no other. -/
theorem holder_eq_iff (h : Reach (system x) ok s) {t : Tid} (ht : validTid t = true) :
    s.shared.word &&& FUTEX_TID_MASK = t ↔ guards s t ≠ [] := by
  constructor
  · intro hw
    have hne : s.shared.word ≠ 0 := by
      intro h0
      have hz : (0 : Word) &&& FUTEX_TID_MASK = 0 := by decide
      rw [h0, hz] at hw
      exact validTid_ne_zero ht hw.symm
    obtain ⟨u, hu, hg⟩ := exists_ownedBy h hne
    rwa [← hw, hu.2.holder hu.1]
  · exact fun hg => (ownedBy_of_guards h hg).2.holder ht

end Owner

/-- Dropping the guard before its section has ended is excluded. -/
theorem writesBeforeDrop.finishesSection {s : World T} {l : Label Tid (Action T)}
    (h : writesBeforeDrop s l) : FinishesSection (program T) view s l := by
  rintro t a f fs g' f' r rs rfl hs ha hf hf'
  have hlen : f'.guards.length < f.guards.length := by
    change f.guards = r :: rs at hf
    change f'.guards = rs at hf'
    rw [hf, hf', List.length_cons]
    omega
  cases act_cases ha with
  | drop => exact h _ _ _ _ hs hf
  | _ => exact absurd hlen (by simp)

theorem rawUnlock_ne_abort {t : Tid} {w : Word} (ht : validTid t = true) (hw : HeldBy t w) :
    rawUnlock t w ≠ .abort := by
  unfold rawUnlock
  rw [if_neg (not_not.mpr (hw.holder ht))]
  rcases hw with rfl | rfl
  · simp
  · rw [if_pos (or_waiters_ne ht), if_pos rfl]
    rintro ⟨⟩

theorem rawLockContended_ne_abort (t : Tid) (w : Word) : rawLockContended t w ≠ .abort := by
  unfold rawLockContended
  split_ifs <;> rintro ⟨⟩

/-- Neither the abort nor the debug assertion of `raw_unlock` is reached. -/
theorem no_abort {x : T} {ok : World T → Label Tid (Action T) → Prop} {s : World T}
    (h : Reach (system x) ok s) (t : Tid) :
    Layered (fun f _ => f.pc ≠ .abort) (s.stack t) := by
  refine layered_of_reach (Q := fun _ f _ => f.pc ≠ .abort) h ?_ (fun _ _ => by rintro ⟨⟩)
    (fun _ _ _ _ h => h) ?_ ?_ t
  · rintro s rfl t
    rfl
  · intro s t b f fs g' f' hr hs ha hf
    cases act_cases ha with
    | contend => exact rawLockContended_ne_abort _ _
    | loseAcquire => exact rawLockContended_ne_abort _ _
    | loseWaiters => exact rawLockContended_ne_abort _ _
    | load => exact rawLockContended_ne_abort _ _
    | drop =>
      obtain ⟨rfl, ht, hw⟩ := of_guard (x := x) hr hs rfl
      exact rawUnlock_ne_abort ht hw
    | lock => rintro ⟨⟩
    | take _ => rintro ⟨⟩
    | takeContended _ => rintro ⟨⟩
    | setWaiters _ => rintro ⟨⟩
    | sleep _ => rintro ⟨⟩
    | eagain _ => rintro ⟨⟩
    | woken _ => rintro ⟨⟩
    | spuriousWake => rintro ⟨⟩
    | ret => rintro ⟨⟩
    | access _ => rintro ⟨⟩
    | wakeNone _ => rintro ⟨⟩
    | wakeSome _ => rintro ⟨⟩
  · rintro s t f f₀ fs f' f₀' - hh - hf₀
    obtain ⟨gs, rfl, rfl, rfl⟩ := handOut_cases hh
    exact ⟨by rintro ⟨⟩, hf₀⟩

/-- Mutual exclusion, also between a thread and its own signal handlers, and the item
as the composition of the updates in the order of acquisition. -/
theorem futex_mutual_exclusion {x : T} {s : World T} (h : Reach (system x) anyStep s) :
    (∀ t, (guards s t).length ≤ 1) ∧
    (∀ t u, guards s t ≠ [] → guards s u ≠ [] → t = u) ∧
    (s.shared.word = 0 ↔ ∀ t, guards s t = []) ∧
    (∀ t, guards s t ≠ [] → HeldBy t s.shared.word) ∧
    (∀ t, ∀ f ∈ s.stack t, f.pc ≠ .abort) ∧
    (Reach (system x) writesBeforeDrop s → (∀ t, guards s t = []) →
      s.shared.cell.item = replay x s.shared.cell.history) := by
  obtain ⟨a, hR⟩ := represented (refines x anyStep) h
  obtain ⟨o, hsole⟩ := hR.sole
  refine ⟨hsole.at_most_one.1, hsole.at_most_one.2, hR.free_iff, fun t ht => (hR.heldBy ht).2,
    fun t => (no_abort h t).mem, fun hd hfree => ?_⟩
  exact item_eq_replay (refines x _) (fun _ _ => writesBeforeDrop.finishesSection) hd hfree

/-- Thread 1 holds the lock and thread 2 has gone to sleep on it. -/
def contention : List (Label Tid (Action ℕ)) :=
  [.spawn 1, .act 1 .lock, .act 1 (.exchange false (· + 1)), .spawn 2, .act 2 .lock,
    .act 2 (.exchange false (· + 2)), .act 2 (.exchange false (· + 2)), .act 2 .wait]

/-- Thread `t` takes the free lock, and reads and updates the item. -/
def critical (t : Tid) (u : ℕ → ℕ) : List (Label Tid (Action ℕ)) :=
  [.spawn t, .act t .lock, .act t (.exchange false u), .act t .ret, .act t (.access .read),
    .act t (.access .write)]

theorem futex_mutual_exclusion_contention :
    (∃ s, run (system 5) (new 5) contention = some s ∧ guards s 1 ≠ [] ∧
      (guards s 1).length ≤ 1 ∧ HeldBy 1 s.shared.word) ∧
    ∃ s, run (system 5) (new 5) (critical 1 (· + 1) ++ .act 1 .drop :: critical 2 (· * 2) ++
        [.act 2 .drop]) = some s ∧ s.shared.word = 0 ∧ s.shared.cell.item = 12 ∧
      s.shared.cell.item = replay 5 s.shared.cell.history := by
  constructor
  · have hr : run (system 5) (new 5) contention = some _ := rfl
    have h := futex_mutual_exclusion (x := 5) ((Reach.initial rfl).run (fun _ _ _ => trivial) hr)
    exact ⟨_, hr, List.cons_ne_nil _ _, h.1 1, h.2.2.2.1 1 (List.cons_ne_nil _ _)⟩
  · have hfirst : Reach (system 5) writesBeforeDrop _ := (Reach.initial rfl).run
      (by simp [critical, writesBeforeDrop])
      (rfl : run (system 5) (new 5) (critical 1 (· + 1)) = some _)
    have hdrop : Reach (system 5) writesBeforeDrop _ := .step hfirst (a := .act 1 .drop)
      (by rintro f fs g gs ⟨⟩ ⟨⟩; rfl) rfl
    have hsecond : Reach (system 5) writesBeforeDrop _ := hdrop.run
      (by simp [critical, writesBeforeDrop])
      (rfl : run (system 5) _ (critical 2 (· * 2)) = some _)
    have hend : Reach (system 5) writesBeforeDrop _ := .step hsecond (a := .act 2 .drop)
      (by rintro f fs g gs ⟨⟩ ⟨⟩; rfl) rfl
    have h := futex_mutual_exclusion (hend.mono fun _ _ _ => trivial)
    exact ⟨_, rfl, rfl, rfl, h.2.2.2.2.2 hend (h.2.2.1.mp rfl)⟩

end SignalCrates.FutexLock
