import SignalCrates.PipeLock
import SignalCrates.CellRefinement

/-!
# PipeLock refines the exclusive cell

`holder_tid` alone decides who owns the lock; neither `waiters` nor the bytes in the
pipe are read or written by the argument.
-/
namespace SignalCrates.PipeLock
open SignalLock TransitionSystem InterruptStack ExclusiveCell CellRefinement

variable {T : Type*}

/-- A frame of thread `t` that may still exchange carries its own tid. -/
def Pc.Sound (t : Tid) : Pc → Prop
  | .lock tid => tid = t
  | .fetchAdd tid => tid = t
  | .fence tid => tid = t
  | .exchange tid => tid = t
  | .read tid => tid = t
  | .reading tid => tid = t
  | _ => True

theorem lockContended_sound (t holder : Tid) : (lockContended t holder).Sound t := by
  unfold lockContended
  split_ifs
  · trivial
  · rfl

theorem retry_sound (t holder : Tid) : (retry t holder).Sound t := by
  unfold retry
  split_ifs
  · trivial
  · rfl
  · rfl

theorem unlock_sound (t tid holder : Tid) (contended : Bool) :
    (unlock tid contended holder).Sound t := by
  unfold unlock
  split_ifs <;> trivial

/-- A frame keeps the tid that it carries, or begins a call under that of its thread. -/
theorem Acts.sound_or {capacity : ℕ} {t c : Tid} {a : Action T} {s s' : Shared T}
    {f f' : Frame T} (h : Acts capacity t s a f s' f') (hf : f.pc.Sound c) :
    f'.pc.Sound c ∨ f'.pc.Sound t := by
  cases h with
  | lock => exact .inr rfl
  | contend => obtain rfl := hf; exact .inl (lockContended_sound _ _)
  | lose => obtain rfl := hf; exact .inl (retry_sound _ _)
  | fetchAdd => exact .inl hf
  | fence => exact .inl hf
  | enterRead => exact .inl hf
  | read _ => exact .inl hf
  | drop => exact .inl (unlock_sound c _ _ _)
  | load => left; split_ifs <;> trivial
  | win _ => exact .inl trivial
  | winContended _ => exact .inl trivial
  | fetchSub => exact .inl trivial
  | fenceUnlock => exact .inl trivial
  | write _ => exact .inl trivial
  | writeFull _ => exact .inl trivial
  | writeEintr => exact .inl trivial
  | ret => exact .inl trivial
  | access _ => exact .inl trivial

theorem Acts.sound {capacity : ℕ} {t : Tid} {a : Action T} {s s' : Shared T} {f f' : Frame T}
    (h : Acts capacity t s a f s' f') (hf : f.pc.Sound t) : f'.pc.Sound t :=
  (h.sound_or hf).elim id id

theorem interrupted_sound {t : Tid} {pc : Pc} (h : pc.Sound t) :
    ((pc.step .readEintr).getD pc).Sound t := by
  rcases interrupted_cases pc with ⟨tid, rfl, he⟩ | he
  · rw [he]
    exact h
  · rwa [he]

theorem sound_of_reach {x : T} {capacity : ℕ} {ok : World T → Label Tid (Action T) → Prop}
    {s : World T} (h : Reach (system x capacity) ok s) (t : Tid) :
    Layered (fun f _ => f.pc.Sound t) (s.stack t) := by
  refine layered_of_reach (Q := fun t f _ => f.pc.Sound t) h ?_ (fun _ _ => trivial)
    (fun _ _ _ _ h => interrupted_sound h) ?_ ?_ t
  · rintro s ⟨stale, rfl⟩ t
    rfl
  · exact fun s t a f fs g' f' _ _ ha hf => (act_cases ha).sound hf
  · rintro s t f f₀ fs f' f₀' - hh - hf₀
    obtain ⟨gs, rfl, rfl, rfl⟩ := handOut_cases hh
    exact ⟨trivial, hf₀⟩

theorem validTid_of_reach {x : T} {capacity : ℕ} {ok : World T → Label Tid (Action T) → Prop}
    {s : World T} (h : Reach (system x capacity) ok s) {t : Tid} (ht : s.stack t ≠ []) :
    t ≠ 0 := by
  suffices hv : validTid t = true by simpa [validTid] using hv
  refine h.invariant (I := fun s => ∀ t, s.stack t ≠ [] → validTid t = true) ?_ ?_ t ht
  · rintro s ⟨stale, rfl⟩ t ht
    exact absurd rfl ht
  · exact fun s a s' _ hI _ hn => starts_next (P := program T capacity) hn hI

/-- `holder_tid` of a lock whose guard thread `t` owns. -/
def OwnedBy (t : Tid) (s : Shared T) : Prop := t ≠ 0 ∧ s.holderTid = t

def view : View Tid (Shared T) (Frame T) (PipeLockGuard T) T where
  held := Frame.guards
  tid := PipeLockGuard.tid
  body := PipeLockGuard.body
  cell := Shared.cell
  free s := s.holderTid = 0
  heldBy := OwnedBy
  not_free _ _ h h0 := h.1 (h.2.symm.trans h0)

theorem Acts.effect {capacity : ℕ} {t c : Tid} {a : Action T} {s s' : Shared T}
    {f f' : Frame T} (h : Acts capacity t s a f s' f') (hf : f.pc.Sound c) (ht : c ≠ 0) :
    Effect view c s f s' f' := by
  cases h with
  | @win u tid _ hw =>
    obtain rfl := hf
    exact .acquire u ⟨_, false, .enter u⟩ rfl rfl rfl rfl hw ⟨ht, rfl⟩
  | @winContended u tid _ hw =>
    obtain rfl := hf
    exact .acquire u ⟨_, true, .enter u⟩ rfl rfl rfl rfl hw ⟨ht, rfl⟩
  | @access a g gs _ k hk =>
    exact .access a g ⟨g.tid, g.contended, k⟩ gs rfl rfl rfl hk ⟨id, fun _ => id⟩
  | @drop g gs => exact .release g gs rfl rfl rfl rfl
  | _ => exact .keep rfl rfl ⟨id, fun _ => id⟩

theorem refines (x : T) (capacity : ℕ) (ok : World T → Label Tid (Action T) → Prop) :
    Refines (program T capacity) view (system x capacity).initial ok x where
  conserves := conserves capacity
  start := by
    rintro s ⟨stale, rfl⟩
    exact ⟨rfl, rfl, fun _ => rfl⟩
  deliver _ _ _ := ⟨rfl, id, fun _ => id⟩
  act := by
    intro s t a f fs g' f' hr hs ha
    have hlocal := sound_of_reach (x := x) hr t
    rw [hs] at hlocal
    exact (act_cases ha).effect hlocal.1 (validTid_of_reach (x := x) hr (by simp [hs]))

section Owner
variable {x : T} {capacity : ℕ} {ok : World T → Label Tid (Action T) → Prop} {s : World T}

theorem holderTid_eq_zero_iff (h : Reach (system x capacity) ok s) :
    s.shared.holderTid = 0 ↔ ∀ t, guards s t = [] := by
  obtain ⟨a, hR⟩ := represented (refines x capacity ok) h
  exact hR.free_iff

/-- A guard at hand belongs to the thread that runs, and `holder_tid` is that thread's. -/
theorem of_guard (h : Reach (system x capacity) ok s) {t : Tid} {f : Frame T}
    {fs : List (Frame T)} {g : PipeLockGuard T} {gs : List (PipeLockGuard T)}
    (hs : s.stack t = f :: fs) (hf : f.guards = g :: gs) : g.tid = t ∧ s.shared.holderTid = t := by
  obtain ⟨a, hR⟩ := represented (refines x capacity ok) h
  obtain ⟨-, htid, -, hholder⟩ := hR.of_frame hs hf
  exact ⟨htid, hholder⟩

/-- `holder_tid` names the thread that owns the guard, and no other. -/
theorem holderTid_eq_iff (h : Reach (system x capacity) ok s) {t : Tid} (ht : t ≠ 0) :
    s.shared.holderTid = t ↔ guards s t ≠ [] := by
  obtain ⟨a, hR⟩ := represented (refines x capacity ok) h
  constructor
  · intro hw
    obtain ⟨u, hu, hg⟩ := hR.exists_heldBy (fun h0 => ht (hw.symm.trans h0))
    rwa [← hw, hu.2]
  · exact fun hg => (hR.heldBy hg).2

end Owner

/-- Dropping the guard before its section has ended is excluded. -/
theorem writesBeforeDrop.finishesSection {capacity : ℕ} {s : World T}
    {l : Label Tid (Action T)} (h : writesBeforeDrop s l) :
    FinishesSection (program T capacity) view s l := by
  rintro t a f fs g' f' r rs rfl hs ha hf hf'
  have hlen : f'.guards.length < f.guards.length := by
    change f.guards = r :: rs at hf
    change f'.guards = rs at hf'
    rw [hf, hf', List.length_cons]
    omega
  cases act_cases ha with
  | drop => exact h _ _ _ _ hs hf
  | _ => exact absurd hlen (by simp)

theorem lockContended_ne_abort (t holder : Tid) : lockContended t holder ≠ .abort := by
  unfold lockContended
  split_ifs <;> rintro ⟨⟩

theorem retry_ne_abort (t holder : Tid) : retry t holder ≠ .abort := by
  unfold retry
  split_ifs <;> rintro ⟨⟩

theorem unlock_ne_abort (t : Tid) (contended : Bool) : unlock t contended t ≠ .abort := by
  unfold unlock
  rw [if_neg (not_not.mpr rfl)]
  split_ifs <;> rintro ⟨⟩

/-- The debug assertion of `unlock` never fails. -/
theorem no_abort {x : T} {capacity : ℕ} {ok : World T → Label Tid (Action T) → Prop}
    {s : World T} (h : Reach (system x capacity) ok s) (t : Tid) :
    Layered (fun f _ => f.pc ≠ .abort) (s.stack t) := by
  refine layered_of_reach (Q := fun _ f _ => f.pc ≠ .abort) h ?_ (fun _ _ => by rintro ⟨⟩)
    ?_ ?_ ?_ t
  · rintro s ⟨stale, rfl⟩ t
    rfl
  · intro g t f _ hf
    change (f.pc.step .readEintr).getD f.pc ≠ .abort
    rcases interrupted_cases f.pc with ⟨tid, -, he⟩ | he
    · rw [he]
      rintro ⟨⟩
    · rwa [he]
  · intro s t b f fs g' f' hr hs ha hf
    cases act_cases ha with
    | contend => exact lockContended_ne_abort _ _
    | lose => exact retry_ne_abort _ _
    | drop =>
      obtain ⟨rfl, hw⟩ := of_guard (x := x) hr hs rfl
      rw [hw]
      exact unlock_ne_abort _ _
    | load => split_ifs <;> rintro ⟨⟩
    | _ => rintro ⟨⟩
  · rintro s t f f₀ fs f' f₀' - hh - hf₀
    obtain ⟨gs, rfl, rfl, rfl⟩ := handOut_cases hh
    exact ⟨by rintro ⟨⟩, hf₀⟩

/-- Mutual exclusion, also between a thread and its own signal handlers, and the item
as the composition of the updates in the order of acquisition. -/
theorem pipe_mutual_exclusion {x : T} {capacity : ℕ} {s : World T}
    (h : Reach (system x capacity) anyStep s) :
    (∀ t, (guards s t).length ≤ 1) ∧
    (∀ t u, guards s t ≠ [] → guards s u ≠ [] → t = u) ∧
    (s.shared.holderTid = 0 ↔ ∀ t, guards s t = []) ∧
    (∀ t, guards s t ≠ [] → s.shared.holderTid = t) ∧
    (∀ t, ∀ f ∈ s.stack t, f.pc ≠ .abort) ∧
    (Reach (system x capacity) writesBeforeDrop s → (∀ t, guards s t = []) →
      s.shared.cell.item = replay x s.shared.cell.history) := by
  obtain ⟨a, hR⟩ := represented (refines x capacity anyStep) h
  obtain ⟨o, hsole⟩ := hR.sole
  refine ⟨hsole.at_most_one.1, hsole.at_most_one.2, hR.free_iff, fun t ht => (hR.heldBy ht).2,
    fun t => (no_abort h t).mem, fun hd hfree => ?_⟩
  exact item_eq_replay (refines x capacity _) (fun _ _ => writesBeforeDrop.finishesSection) hd
    hfree

/-- Thread 1 holds the lock, thread 2 has read a stale byte and a handler of thread 2 is
about to call `lock`. -/
def contention : List (Label Tid (Action ℕ)) :=
  [.spawn 1, .act 1 .lock, .act 1 (.op (.win 1) (· + 1)), .spawn 2, .act 2 .lock,
    .act 2 (.op (.lose 1) id), .act 2 (.op .fetchAdd id), .act 2 (.op .fence id),
    .act 2 (.op (.lose 1) id), .act 2 (.op .enterRead id), .act 2 (.op .read id),
    .signal 2, .act 2 .lock]

/-- Thread `t` takes the free lock, and reads and updates the item. -/
def critical (t : Tid) (u : ℕ → ℕ) : List (Label Tid (Action ℕ)) :=
  [.spawn t, .act t .lock, .act t (.op (.win t) u), .act t .ret, .act t (.access .read),
    .act t (.access .write)]

theorem pipe_mutual_exclusion_contention :
    (∃ s, run (system 5 1) (new 5 1) contention = some s ∧ guards s 1 ≠ [] ∧
      (guards s 1).length ≤ 1 ∧ s.shared.holderTid = 1) ∧
    ∃ s, run (system 5 1) (new 5 1) (critical 1 (· + 1) ++ .act 1 .drop :: critical 2 (· * 2) ++
        [.act 2 .drop]) = some s ∧ s.shared.holderTid = 0 ∧ s.shared.cell.item = 12 ∧
      s.shared.cell.item = replay 5 s.shared.cell.history := by
  have hnew : (system 5 1).initial (new 5 1) := ⟨1, rfl⟩
  constructor
  · have hr : run (system 5 1) (new 5 1) contention = some _ := rfl
    have hreach : Reach (system 5 1) anyStep _ :=
      (Reach.initial hnew).run (fun _ _ _ => trivial) hr
    have h := pipe_mutual_exclusion hreach
    exact ⟨_, hr, List.cons_ne_nil _ _, h.1 1, h.2.2.2.1 1 (List.cons_ne_nil _ _)⟩
  · have hfirst : Reach (system 5 1) writesBeforeDrop _ := (Reach.initial hnew).run
      (by simp [critical, writesBeforeDrop])
      (rfl : run (system 5 1) (new 5 1) (critical 1 (· + 1)) = some _)
    have hdrop : Reach (system 5 1) writesBeforeDrop _ := .step hfirst (a := .act 1 .drop)
      (by rintro f fs g gs ⟨⟩ ⟨⟩; rfl) rfl
    have hsecond : Reach (system 5 1) writesBeforeDrop _ := hdrop.run
      (by simp [critical, writesBeforeDrop])
      (rfl : run (system 5 1) _ (critical 2 (· * 2)) = some _)
    have hend : Reach (system 5 1) writesBeforeDrop _ := .step hsecond (a := .act 2 .drop)
      (by rintro f fs g gs ⟨⟩ ⟨⟩; rfl) rfl
    have h := pipe_mutual_exclusion (hend.mono fun _ _ _ => trivial)
    exact ⟨_, rfl, rfl, rfl, h.2.2.2.2.2 hend (h.2.2.1.mp rfl)⟩

end SignalCrates.PipeLock
