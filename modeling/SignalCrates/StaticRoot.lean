import SignalCrates.InterruptStack

/-!
# StaticRoot

`TryOnce` and the slot that it guards. Any frame, a handler's too, may call `get_or_init`
and `get`. The slot is written in two steps, and between them it holds part of a value.
-/
namespace SignalCrates.StaticRoot
open TransitionSystem InterruptStack

variable {ι V E : Type*}

/-- The memory of `root`. -/
inductive Slot (V : Type*)
  | uninit
  | writing (v : V)
  | written (v : V)

/-- `attempts` lists the answers of `SignalLock::new`, the last first, and `writes` counts
the writes of the slot. -/
structure Shared (V E : Type*) where
  init : Bool
  locked : Bool
  slot : Slot V
  attempts : List (Except E V)
  writes : ℕ

inductive Pc (V E : Type*)
  | client
  | load
  | lock
  | loadLocked
  | new
  | write (v : V)
  | writing (v : V)
  | store
  | unlock (res : Except E Unit)
  | unwrap
  | isCompleted
  | returned (res : Except E (Slot V))
  | got (res : Option (Slot V))
  | panicked

/-- `attempt` is the answer of `SignalLock::new` to the frame's present call. -/
structure Frame (V E : Type*) where
  pc : Pc V E
  attempt : Option (Except E V)

inductive Action (V E : Type*)
  | getOrInit
  | get
  | step
  | new (res : Except E V)
  | ret

/-- `StaticRoot::get`; the reference is to whatever the slot holds. -/
def Shared.get (s : Shared V E) : Option (Slot V) := if s.init then some s.slot else none

/-- The operations of `try_call`, of the closure of `init`, and of the two `get`s. -/
def step (s : Shared V E) : Pc V E → Option (Shared V E × Pc V E)
  | .load => some (s, if s.init then .unwrap else .lock)
  | .lock => if s.locked then none else some ({ s with locked := true }, .loadLocked)
  | .loadLocked => some (s, if s.init then .unlock (.ok ()) else .new)
  | .write v => some ({ s with slot := .writing v, writes := s.writes + 1 }, .writing v)
  | .writing v => some ({ s with slot := .written v }, .store)
  | .store => some ({ s with init := true }, .unlock (.ok ()))
  | .unlock (.ok ()) => some ({ s with locked := false }, .unwrap)
  | .unlock (.error e) => some ({ s with locked := false }, .returned (.error e))
  | .unwrap =>
    match s.get with
    | some r => some (s, .returned (.ok r))
    | none => some (s, .panicked)
  | .isCompleted => some (s, .got s.get)
  | _ => none

def act (a : Action V E) (s : Shared V E) (f : Frame V E) : Option (Shared V E × Frame V E) :=
  match a, f.pc with
  | .getOrInit, .client => some (s, ⟨.load, none⟩)
  | .get, .client => some (s, ⟨.isCompleted, none⟩)
  | .step, pc => (step s pc).map fun r => (r.1, { f with pc := r.2 })
  | .new (.ok v), .new =>
    some ({ s with attempts := .ok v :: s.attempts }, ⟨.write v, some (.ok v)⟩)
  | .new (.error e), .new =>
    some ({ s with attempts := .error e :: s.attempts }, ⟨.unlock (.error e), some (.error e)⟩)
  | .ret, .returned _ => some (s, ⟨.client, none⟩)
  | .ret, .got _ => some (s, ⟨.client, none⟩)
  | _, _ => none

def program (ι V E : Type*) : Program ι (Shared V E) (Frame V E) (Action V E) where
  entry := ⟨.client, none⟩
  starts _ := true
  act _ := act
  deliver _ s f := (s, f)
  returns f :=
    match f.pc with
    | .client => true
    | _ => false
  handOut _ _ := none

abbrev World (ι V E : Type*) := InterruptStack.State ι (Shared V E) (Frame V E)

/-- `StaticRoot::new()` -/
def new (ι V E : Type*) : World ι V E := ⟨⟨false, false, .uninit, [], 0⟩, fun _ => []⟩

def system (ι V E : Type*) [DecidableEq ι] :
    TransitionSystem.System (World ι V E) (Label ι (Action V E)) where
  initial s := s = new ι V E
  next := InterruptStack.next (program ι V E)

/-- All that one action can do, by the point at which the frame stands. -/
inductive Acts (s : Shared V E) : Action V E → Frame V E → Shared V E → Frame V E → Prop
  | getOrInit {a} : Acts s .getOrInit ⟨.client, a⟩ s ⟨.load, none⟩
  | get {a} : Acts s .get ⟨.client, a⟩ s ⟨.isCompleted, none⟩
  | load {a} : Acts s .step ⟨.load, a⟩ s ⟨if s.init then .unwrap else .lock, a⟩
  | lock {a} (h : s.locked = false) :
      Acts s .step ⟨.lock, a⟩ { s with locked := true } ⟨.loadLocked, a⟩
  | loadLocked {a} :
      Acts s .step ⟨.loadLocked, a⟩ s ⟨if s.init then .unlock (.ok ()) else .new, a⟩
  | succeed {v a} : Acts s (.new (.ok v)) ⟨.new, a⟩
      { s with attempts := .ok v :: s.attempts } ⟨.write v, some (.ok v)⟩
  | fail {e a} : Acts s (.new (.error e)) ⟨.new, a⟩
      { s with attempts := .error e :: s.attempts } ⟨.unlock (.error e), some (.error e)⟩
  | write {v a} : Acts s .step ⟨.write v, a⟩
      { s with slot := .writing v, writes := s.writes + 1 } ⟨.writing v, a⟩
  | writing {v a} : Acts s .step ⟨.writing v, a⟩ { s with slot := .written v } ⟨.store, a⟩
  | store {a} : Acts s .step ⟨.store, a⟩ { s with init := true } ⟨.unlock (.ok ()), a⟩
  | unlock {a} : Acts s .step ⟨.unlock (.ok ()), a⟩ { s with locked := false } ⟨.unwrap, a⟩
  | unlockError {e a} : Acts s .step ⟨.unlock (.error e), a⟩ { s with locked := false }
      ⟨.returned (.error e), a⟩
  | unwrap {a} (h : s.init = true) :
      Acts s .step ⟨.unwrap, a⟩ s ⟨.returned (.ok s.slot), a⟩
  | unwrapNone {a} (h : s.init = false) : Acts s .step ⟨.unwrap, a⟩ s ⟨.panicked, a⟩
  | isCompleted {a} : Acts s .step ⟨.isCompleted, a⟩ s ⟨.got s.get, a⟩
  | retReturned {res a} : Acts s .ret ⟨.returned res, a⟩ s ⟨.client, none⟩
  | retGot {res a} : Acts s .ret ⟨.got res, a⟩ s ⟨.client, none⟩

theorem act_cases {a : Action V E} {s s' : Shared V E} {f f' : Frame V E}
    (h : act a s f = some (s', f')) : Acts s a f s' f' := by
  obtain ⟨pc, own⟩ := f
  cases a with
  | getOrInit =>
    cases pc <;> simp [act] at h
    obtain ⟨rfl, rfl⟩ := h
    exact .getOrInit
  | get =>
    cases pc <;> simp [act] at h
    obtain ⟨rfl, rfl⟩ := h
    exact .get
  | new res =>
    cases pc <;> rcases res with e | v <;> simp [act] at h
    · obtain ⟨rfl, rfl⟩ := h
      exact .fail
    · obtain ⟨rfl, rfl⟩ := h
      exact .succeed
  | ret =>
    cases pc <;> simp [act] at h
    case returned res =>
      obtain ⟨rfl, rfl⟩ := h
      exact .retReturned
    case got res =>
      obtain ⟨rfl, rfl⟩ := h
      exact .retGot
  | step =>
    simp only [act, Option.map_eq_some_iff, Prod.mk.injEq] at h
    obtain ⟨⟨s₁, pc₁⟩, hstep, rfl, rfl⟩ := h
    cases pc with
    | load => cases hstep; exact .load
    | lock =>
      simp only [step, Option.ite_none_left_eq_some, Option.some.injEq, Prod.mk.injEq] at hstep
      obtain ⟨hl, rfl, rfl⟩ := hstep
      exact .lock (by simpa using hl)
    | loadLocked => cases hstep; exact .loadLocked
    | write v => cases hstep; exact .write
    | writing v => cases hstep; exact .writing
    | store => cases hstep; exact .store
    | unlock res => rcases res with e | ⟨⟩ <;> cases hstep <;> constructor
    | unwrap =>
      cases hi : s.init with
      | true =>
        have hg : s.get = some s.slot := if_pos hi
        simp only [step, hg, Option.some.injEq, Prod.mk.injEq] at hstep
        obtain ⟨rfl, rfl⟩ := hstep
        exact .unwrap hi
      | false =>
        have hg : s.get = none := if_neg (by simp [hi])
        simp only [step, hg, Option.some.injEq, Prod.mk.injEq] at hstep
        obtain ⟨rfl, rfl⟩ := hstep
        exact .unwrapNone hi
    | isCompleted => cases hstep; exact .isCompleted
    | client => cases hstep
    | new => cases hstep
    | returned res => cases hstep
    | got res => cases hstep
    | panicked => cases hstep


/-- No attempt has succeeded, and the slot has not been touched. -/
structure Shared.Fresh (s : Shared V E) : Prop where
  init : s.init = false
  slot : s.slot = .uninit
  writes : s.writes = 0
  failed : ∀ v, .ok v ∉ s.attempts

/-- The last attempt answered `v`, and it was the first to succeed. -/
def Shared.Made (v : V) (s : Shared V E) : Prop :=
  ∃ failed, s.attempts = .ok v :: failed ∧ ∀ u, .ok u ∉ failed

structure Shared.Wrote (v : V) (s : Shared V E) : Prop where
  slot : s.slot = .written v
  writes : s.writes = 1
  made : s.Made v

/-- What the owner of the mutex knows at each point of its critical section. -/
def Pc.Owns (s : Shared V E) : Pc V E → Prop
  | .loadLocked => s.Fresh ∨ s.init = true ∧ ∃ v, s.Wrote v
  | .new => s.Fresh
  | .write v => s.init = false ∧ s.slot = .uninit ∧ s.writes = 0 ∧ s.Made v
  | .writing v => s.init = false ∧ s.slot = .writing v ∧ s.writes = 1 ∧ s.Made v
  | .store => s.init = false ∧ ∃ v, s.Wrote v
  | .unlock (.ok ()) => s.init = true ∧ ∃ v, s.Wrote v
  | .unlock (.error _) => s.Fresh
  | _ => False

/-- The frame's place in the critical section. -/
def Frame.held (f : Frame V E) : List (Pc V E) :=
  match f.pc with
  | .loadLocked => [f.pc]
  | .new => [f.pc]
  | .write _ => [f.pc]
  | .writing _ => [f.pc]
  | .store => [f.pc]
  | .unlock _ => [f.pc]
  | _ => []

/-- What the mutex protects, in the hands of `o` or free. -/
def Shared.Protects (s : Shared V E) : Option (ι × Pc V E) → Prop
  | none => s.locked = false ∧ (s.Fresh ∨ s.init = true ∧ ∃ v, s.Wrote v)
  | some (_, pc) => s.locked = true ∧ pc.Owns s

/-- What the memory can be, whoever holds the mutex. -/
inductive Shared.Phase (s : Shared V E) : Prop
  | fresh (h : s.Fresh)
  | writing (v : V) (init : s.init = false) (slot : ∀ u, s.slot ≠ .written u)
      (writes : s.writes ≤ 1) (made : s.Made v)
  | wrote (v : V) (h : s.Wrote v)

theorem Pc.Owns.phase {s : Shared V E} {pc : Pc V E} (h : pc.Owns s) : s.Phase := by
  cases pc with
  | loadLocked =>
    rcases h with hfresh | ⟨-, v, hw⟩
    · exact .fresh hfresh
    · exact .wrote v hw
  | new => exact .fresh h
  | write v =>
    obtain ⟨hi, hslot, hw, hm⟩ := h
    exact .writing v hi (by simp [hslot]) (by omega) hm
  | writing v =>
    obtain ⟨hi, hslot, hw, hm⟩ := h
    exact .writing v hi (by simp [hslot]) (by omega) hm
  | store =>
    obtain ⟨-, v, hw⟩ := h
    exact .wrote v hw
  | unlock res =>
    rcases res with e | ⟨⟩
    · exact .fresh h
    · obtain ⟨-, v, hw⟩ := h
      exact .wrote v hw
  | _ => exact h.elim

section Phase
variable {s : Shared V E}

theorem Shared.Phase.writes_le (h : s.Phase) : s.writes ≤ 1 := by
  cases h with
  | fresh h => exact h.writes ▸ Nat.zero_le 1
  | writing v _ _ hw _ => exact hw
  | wrote v h => exact h.writes.le

theorem Shared.Phase.wrote_of_init (h : s.Phase) (hi : s.init = true) : ∃ v, s.Wrote v := by
  cases h with
  | fresh h => exact absurd (hi.symm.trans h.init) (by simp)
  | writing v hi' _ _ _ => exact absurd (hi.symm.trans hi') (by simp)
  | wrote v h => exact ⟨v, h⟩

theorem Shared.Phase.wrote_of_slot (h : s.Phase) {v : V} (hv : s.slot = .written v) :
    s.Wrote v := by
  cases h with
  | fresh h => exact absurd (hv.symm.trans h.slot) (by simp)
  | writing u _ hslot _ _ => exact absurd hv (hslot v)
  | wrote u h =>
    obtain rfl : u = v := by simpa [h.slot] using hv
    exact h

/-- Only the last attempt can have succeeded. -/
theorem Shared.Phase.attempts (h : s.Phase) (v : V) : .ok v ∉ s.attempts.tail := by
  have made : ∀ {u : V}, s.Made u → .ok v ∉ s.attempts.tail := by
    rintro u ⟨failed, hs, hf⟩
    rw [hs]
    exact hf v
  cases h with
  | fresh h => exact fun hv => h.failed v (List.mem_of_mem_tail hv)
  | writing u _ _ _ hm => exact made hm
  | wrote u h => exact made h.made

end Phase

/-- One frame at most is in the critical section, and the slot is as its place there says. -/
def Guarded (s : World ι V E) : Prop :=
  ∃ o, Sole (live Frame.held s) o ∧ s.shared.Protects o

theorem Guarded.phase {s : World ι V E} (h : Guarded s) : s.shared.Phase := by
  obtain ⟨o, -, hp⟩ := h
  cases o with
  | none =>
    rcases hp.2 with hfresh | ⟨-, v, hw⟩
    · exact .fresh hfresh
    · exact .wrote v hw
  | some p => exact hp.2.phase

theorem conserves : Conserves (program ι V E) Frame.held where
  entry := rfl
  deliver _ _ _ := rfl
  returns f hf := by
    obtain ⟨pc, a⟩ := f
    cases pc with
    | client => rfl
    | _ => cases hf
  handOut f f₀ f' f₀' h := by cases h

/-- A step outside the mutex, or one that takes it, keeps it or gives it up. -/
inductive Mutexed (s : Shared V E) (f : Frame V E) : Shared V E → Frame V E → Prop
  | outside {f'} (hf : f'.held = f.held) : Mutexed s f s f'
  | take {f'} (hf : f'.held = f'.pc :: f.held) (hl : s.locked = false)
      (ho : s.Fresh ∨ s.init = true ∧ (∃ v, s.Wrote v) →
        f'.pc.Owns { s with locked := true }) : Mutexed s f { s with locked := true } f'
  | inside {s' f'} (hf : f.held = [f.pc]) (hf' : f'.held = [f'.pc]) (hl : s'.locked = s.locked)
      (ho : f.pc.Owns s → f'.pc.Owns s') : Mutexed s f s' f'
  | release {s' f'} (hf : f.held = [f.pc]) (hf' : f'.held = []) (hl : s'.locked = false)
      (ho : f.pc.Owns s → s'.Fresh ∨ s'.init = true ∧ ∃ v, s'.Wrote v) : Mutexed s f s' f'

theorem Acts.mutexed {a : Action V E} {s s' : Shared V E} {f f' : Frame V E}
    (h : Acts s a f s' f') : Mutexed s f s' f' := by
  cases h with
  | getOrInit => exact .outside rfl
  | get => exact .outside rfl
  | load => exact .outside (by cases s.init <;> rfl)
  | lock hl =>
    refine .take rfl hl ?_
    rintro (hfresh | ⟨hi, v, hw⟩)
    · exact .inl ⟨hfresh.init, hfresh.slot, hfresh.writes, hfresh.failed⟩
    · exact .inr ⟨hi, v, hw.slot, hw.writes, hw.made⟩
  | loadLocked =>
    cases hi : s.init with
    | false =>
      refine .inside rfl rfl rfl ?_
      rintro (hfresh | ⟨hi', -⟩)
      · exact hfresh
      · exact absurd (hi.symm.trans hi') (by simp)
    | true =>
      refine .inside rfl rfl rfl ?_
      rintro (hfresh | hdone)
      · exact absurd (hi.symm.trans hfresh.init) (by simp)
      · exact hdone
  | succeed =>
    refine .inside rfl rfl rfl fun hfresh => ?_
    exact ⟨hfresh.init, hfresh.slot, hfresh.writes, s.attempts, rfl, hfresh.failed⟩
  | fail =>
    refine .inside rfl rfl rfl fun hfresh => ?_
    refine ⟨hfresh.init, hfresh.slot, hfresh.writes, fun v hv => ?_⟩
    rcases List.mem_cons.mp hv with he | hv
    · cases he
    · exact hfresh.failed v hv
  | write =>
    refine .inside rfl rfl rfl ?_
    rintro ⟨hi, -, hw, hm⟩
    exact ⟨hi, rfl, congrArg (· + 1) hw, hm⟩
  | @writing v =>
    refine .inside rfl rfl rfl ?_
    rintro ⟨hi, -, hw, hm⟩
    exact ⟨hi, v, rfl, hw, hm⟩
  | store =>
    refine .inside rfl rfl rfl ?_
    rintro ⟨-, v, hw⟩
    exact ⟨rfl, v, hw.slot, hw.writes, hw.made⟩
  | unlock =>
    refine .release rfl rfl rfl ?_
    rintro ⟨hi, v, hw⟩
    exact .inr ⟨hi, v, hw.slot, hw.writes, hw.made⟩
  | unlockError =>
    refine .release rfl rfl rfl fun hfresh => .inl ?_
    exact ⟨hfresh.init, hfresh.slot, hfresh.writes, hfresh.failed⟩
  | unwrap _ => exact .outside rfl
  | unwrapNone _ => exact .outside rfl
  | isCompleted => exact .outside rfl
  | retReturned => exact .outside rfl
  | retGot => exact .outside rfl

/-- What no later step undoes. -/
structure Shared.Later (s s' : Shared V E) : Prop where
  init : s.init = true → s'.init = true
  wrote : ∀ v, s.Wrote v → s'.Wrote v

theorem Shared.Fresh.not_wrote {s : Shared V E} (h : s.Fresh) {v : V} : ¬ s.Wrote v := by
  intro hw
  exact absurd (hw.slot.symm.trans h.slot) (by simp)

theorem Acts.later {a : Action V E} {s s' : Shared V E} {f f' : Frame V E}
    (h : Acts s a f s' f') (ho : f.held = [f.pc] → f.pc.Owns s) : s.Later s' := by
  cases h with
  | lock _ => exact ⟨id, fun v hw => ⟨hw.slot, hw.writes, hw.made⟩⟩
  | succeed => exact ⟨id, fun v hw => absurd hw (Shared.Fresh.not_wrote (ho rfl))⟩
  | fail => exact ⟨id, fun v hw => absurd hw (Shared.Fresh.not_wrote (ho rfl))⟩
  | write =>
    obtain ⟨-, hslot, -, -⟩ := ho rfl
    exact ⟨id, fun v hw => absurd (hw.slot.symm.trans hslot) (by simp)⟩
  | writing =>
    obtain ⟨-, hslot, -, -⟩ := ho rfl
    exact ⟨id, fun v hw => absurd (hw.slot.symm.trans hslot) (by simp)⟩
  | store => exact ⟨fun _ => rfl, fun v hw => ⟨hw.slot, hw.writes, hw.made⟩⟩
  | unlock => exact ⟨id, fun v hw => ⟨hw.slot, hw.writes, hw.made⟩⟩
  | unlockError => exact ⟨id, fun v hw => ⟨hw.slot, hw.writes, hw.made⟩⟩
  | _ => exact ⟨id, fun _ => id⟩

/-- What a frame outside the critical section knows. -/
def Frame.Sound (s : Shared V E) (f : Frame V E) : Prop :=
  match f.pc with
  | .unlock (.error e) => f.attempt = some (.error e)
  | .unwrap => s.init = true
  | .returned (.ok r) => ∃ v, r = .written v ∧ s.Wrote v
  | .returned (.error e) => f.attempt = some (.error e)
  | .got (some r) => ∃ v, r = .written v ∧ s.Wrote v
  | .panicked => False
  | _ => True

theorem Frame.Sound.mono {s s' : Shared V E} {f : Frame V E} (h : f.Sound s)
    (hl : s.Later s') : f.Sound s' := by
  have wrote : ∀ {r : Slot V}, (∃ v, r = .written v ∧ s.Wrote v) →
      ∃ v, r = .written v ∧ s'.Wrote v := by
    rintro r ⟨v, hr, hw⟩
    exact ⟨v, hr, hl.wrote v hw⟩
  obtain ⟨pc, a⟩ := f
  cases pc with
  | unlock res =>
    cases res with
    | error e => exact h
    | ok _ => trivial
  | unwrap => exact hl.init h
  | returned res =>
    cases res with
    | error e => exact h
    | ok r => exact wrote h
  | got res =>
    cases res with
    | none => trivial
    | some r => exact wrote h
  | panicked => exact h.elim
  | _ => trivial

theorem Acts.sound {a : Action V E} {s s' : Shared V E} {f f' : Frame V E}
    (h : Acts s a f s' f') (hs : s.init = true → ∃ v, s.Wrote v)
    (ho : f.held = [f.pc] → f.pc.Owns s) (hf : f.Sound s) : f'.Sound s' := by
  cases h with
  | load =>
    cases hi : s.init with
    | false => trivial
    | true => exact hi
  | loadLocked => cases s.init <;> trivial
  | fail => rfl
  | unlock => exact (ho rfl).1
  | unlockError => exact hf
  | unwrap hi =>
    obtain ⟨v, hw⟩ := hs hi
    exact ⟨v, hw.slot, hw⟩
  | unwrapNone hi => exact absurd (hi.symm.trans hf) (by simp)
  | isCompleted =>
    cases hi : s.init with
    | false => simp [Frame.Sound, Shared.get, hi]
    | true =>
      obtain ⟨v, hw⟩ := hs hi
      simpa [Frame.Sound, Shared.get, hi] using ⟨v, hw.slot, hw⟩
  | _ => trivial

variable [DecidableEq ι]

theorem guarded_next {s s' : World ι V E} {l : Label ι (Action V E)} (h : Guarded s)
    (hn : next (program ι V E) s l = some s') : Guarded s' := by
  obtain ⟨o, hsole, hp⟩ := h
  rcases conserves.live_next hn with ⟨hlive, hl⟩ | ⟨t, a, f, fs, g', f', rfl, hs, ha, rfl⟩
  · have hshared : s'.shared = s.shared := by
      rcases shared_next hn hl with he | ⟨t, f, he⟩
      · exact he
      · exact he
    exact ⟨o, hsole.congr hlive, hshared ▸ hp⟩
  · cases (act_cases ha).mutexed with
    | outside hf => exact ⟨o, hsole.congr (live_put_eq _ hs hf), hp⟩
    | take hf hl ho =>
      cases o with
      | none => exact ⟨_, hsole.take hs hf, rfl, ho hp.2⟩
      | some p => exact absurd (hl.symm.trans hp.1) (by simp)
    | inside hf hf' hl ho =>
      obtain ⟨rfl, -, -⟩ := hsole.of_frame hs hf
      exact ⟨_, hsole.change hs hf hf', hl.trans hp.1, ho hp.2⟩
    | release hf hf' hl ho =>
      obtain ⟨rfl, -, -⟩ := hsole.of_frame hs hf
      exact ⟨none, hsole.drop hs hf hf', hl, ho hp.2⟩

theorem guarded {s : World ι V E} (h : Reach (system ι V E) anyStep s) : Guarded s := by
  refine h.invariant ?_ fun _ _ _ _ hI _ hn => guarded_next hI hn
  rintro s rfl
  exact ⟨none, fun _ => rfl, rfl, .inl ⟨rfl, rfl, rfl, by simp [new]⟩⟩

theorem Guarded.owns {s : World ι V E} (h : Guarded s) {t : ι} {f : Frame V E}
    (hf : f ∈ s.stack t) (hh : f.held = [f.pc]) : f.pc.Owns s.shared := by
  obtain ⟨o, hsole, hp⟩ := h
  have hm : f.pc ∈ live Frame.held s t := List.mem_flatMap.mpr ⟨f, hf, by simp [hh]⟩
  obtain rfl := hsole.of_mem hm
  exact hp.2

theorem later_next {s s' : World ι V E} {l : Label ι (Action V E)} (h : Guarded s)
    (hn : next (program ι V E) s l = some s') : s.shared.Later s'.shared := by
  rcases conserves.live_next hn with ⟨-, hl⟩ | ⟨t, a, f, fs, g', f', rfl, hs, ha, rfl⟩
  · rcases shared_next hn hl with he | ⟨t, f, he⟩
    · exact he ▸ ⟨id, fun _ => id⟩
    · exact he ▸ ⟨id, fun _ => id⟩
  · have hf : f ∈ s.stack t := by simp [hs]
    exact (act_cases ha).later (h.owns hf)

theorem sound {s : World ι V E} (h : Reach (system ι V E) anyStep s) (t : ι) :
    ∀ f ∈ s.stack t, f.Sound s.shared := by
  refine (h.invariant (I := fun s => ∀ t, Layered (fun f _ => f.Sound s.shared) (s.stack t))
    ?_ ?_ t).mem
  · rintro s rfl t
    trivial
  · intro s l s' hr hI _ hn
    have hg := guarded hr
    have hl := later_next hg hn
    refine layered_next hn (Q := fun _ f _ => f.Sound s'.shared) ?_ (fun _ _ => trivial)
      (fun _ _ _ h => h) ?_ (by rintro t f f₀ fs f' f₀' - ⟨⟩)
    · exact fun t => layered_of_forall fun f hf => ((hI t).mem f hf).mono hl
    · rintro t a f fs g' f' rfl hs ha -
      have hf : f ∈ s.stack t := by simp [hs]
      have hshared : s'.shared = g' := by
        have hnext : next (program ι V E) s (.act t a) = some s' := hn
        rw [next_act hs, ha] at hnext
        exact congrArg State.shared (Option.some.inj hnext).symm
      rw [hshared]
      exact (act_cases ha).sound hg.phase.wrote_of_init (hg.owns hf) ((hI t).mem f hf)

/-- The slot is written once, is seen whole only, and failed calls have failed themselves. -/
structure Once (s : World ι V E) : Prop where
  writes : s.shared.writes ≤ 1
  get : ∀ r, s.shared.get = some r → ∃ v, r = .written v ∧ s.shared.Wrote v
  got : ∀ t, ∀ f ∈ s.stack t, ∀ r, f.pc = .got (some r) →
    ∃ v, r = .written v ∧ s.shared.Wrote v
  ok : ∀ t, ∀ f ∈ s.stack t, ∀ r, f.pc = .returned (.ok r) →
    ∃ v, r = .written v ∧ s.shared.Wrote v
  error : ∀ t, ∀ f ∈ s.stack t, ∀ e, f.pc = .returned (.error e) →
    f.attempt = some (.error e)
  unwrap : ∀ t, ∀ f ∈ s.stack t, f.pc ≠ .panicked
  attempts : ∀ v, .ok v ∉ s.shared.attempts.tail
  attempting : ∀ t, ∀ f ∈ s.stack t, f.pc = .new → ∀ v, .ok v ∉ s.shared.attempts

theorem once {s : World ι V E} (h : Reach (system ι V E) anyStep s) : Once s := by
  have hg := guarded h
  have pcSound : ∀ {t f pc}, f ∈ s.stack t → f.pc = pc → Frame.Sound s.shared ⟨pc, f.attempt⟩ := by
    rintro t f pc hf rfl
    exact sound h t f hf
  refine ⟨hg.phase.writes_le, ?_, ?_, ?_, ?_, ?_, hg.phase.attempts, ?_⟩
  · intro r hr
    simp only [Shared.get, Option.ite_none_right_eq_some, Option.some.injEq] at hr
    obtain ⟨hi, rfl⟩ := hr
    obtain ⟨v, hw⟩ := hg.phase.wrote_of_init hi
    exact ⟨v, hw.slot, hw⟩
  · exact fun t f hf r hpc => pcSound hf hpc
  · exact fun t f hf r hpc => pcSound hf hpc
  · exact fun t f hf e hpc => pcSound hf hpc
  · exact fun t f hf hpc => pcSound hf hpc
  · intro t f hf hpc
    have ho : f.pc.Owns s.shared := hg.owns hf (by simp [Frame.held, hpc])
    rw [hpc] at ho
    exact ho.failed

/-- The value in the slot stays. -/
theorem slot_run {ls : List (Label ι (Action V E))} {s s' : World ι V E}
    (h : Reach (system ι V E) anyStep s) (hr : run (system ι V E) s ls = some s') {v : V}
    (hv : s.shared.slot = .written v) : s'.shared.slot = .written v := by
  induction ls generalizing s with
  | nil =>
    obtain rfl : s = s' := by simpa [run] using hr
    exact hv
  | cons l ls ih =>
    obtain ⟨s₁, hs, hr⟩ := Option.bind_eq_some_iff.mp hr
    have hg := guarded h
    have hw := (later_next hg hs).wrote v (hg.phase.wrote_of_slot hv)
    exact ih (.step h trivial hs) hr hw.slot

/-- `StaticRoot` over all runs, with handlers that call `get` in the middle of `init`. -/
theorem static_root_once {s : World ι V E} (h : Reach (system ι V E) anyStep s) :
    Once s ∧ ∀ ls s', run (system ι V E) s ls = some s' →
      ∀ v, s.shared.slot = .written v → s'.shared.slot = .written v :=
  ⟨once h, fun _ _ hr _ => slot_run h hr⟩

/-- The attempt of thread 1 fails while thread 2 waits; thread 2 then succeeds, and its
handler asks in the middle of the write and after it. -/
def failThenSucceed : List (Label ℕ (Action ℕ String)) :=
  [.spawn 1, .act 1 .getOrInit, .act 1 .step, .spawn 2, .act 2 .getOrInit, .act 2 .step,
    .act 1 .step, .act 1 .step, .act 1 (.new (.error "EMFILE")), .act 1 .step,
    .act 2 .step, .act 2 .step, .act 2 (.new (.ok 7)), .act 2 .step,
    .signal 2, .act 2 .get, .act 2 .step, .act 2 .ret, .finish 2,
    .act 2 .step, .act 2 .step, .act 2 .step, .act 2 .step,
    .signal 2, .act 2 .get, .act 2 .step]

theorem static_root_once_retry :
    ∃ s, run (system ℕ ℕ String) (new ℕ ℕ String) failThenSucceed = some s ∧
    s.stack 1 = [⟨.returned (.error "EMFILE"), some (.error "EMFILE")⟩] ∧
    s.stack 2 = [⟨.got (some (.written 7)), none⟩,
      ⟨.returned (.ok (.written 7)), some (.ok 7)⟩] ∧ Once s := by
  obtain ⟨s, hs, h₁, h₂⟩ : ∃ s,
      run (system ℕ ℕ String) (new ℕ ℕ String) failThenSucceed = some s ∧
      s.stack 1 = [⟨.returned (.error "EMFILE"), some (.error "EMFILE")⟩] ∧
      s.stack 2 = [⟨.got (some (.written 7)), none⟩,
        ⟨.returned (.ok (.written 7)), some (.ok 7)⟩] := ⟨_, rfl, rfl, rfl⟩
  have hr : Reach (system ℕ ℕ String) anyStep s :=
    (Reach.initial rfl).run (fun _ _ _ => trivial) hs
  exact ⟨s, hs, h₁, h₂, (static_root_once hr).1⟩

end SignalCrates.StaticRoot
