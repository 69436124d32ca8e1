import SignalCrates.FutexReentrancy
import SignalCrates.ForkCall

/-!
# FutexLock after a fork

The word and the guards are copied. The sleepers of the parent stay in the parent, whose
futex queue is private to it.
-/
namespace SignalCrates.FutexLock
open SignalLock TransitionSystem InterruptStack LockCall CellRefinement FutexWord Fork

variable {T : Type*}

/-- `fork` is called by the client's code, or by a handler's. -/
def forking (T : Type*) : Forking (Shared T) (Frame T) where
  forks f :=
    match f.pc with
    | .client => true
    | _ => false
  copy s := { s with queue := ∅ }
  share _ s := s

/-- One process with a new lock. -/
def forkSystem (x : T) :
    System (Fork.World Tid (Shared T) (Frame T)) (Event Tid (Action T)) where
  initial w := w = [new x]
  next := Fork.next (program T) (forking T)

theorem forkSystem_initial (x : T) (w : Fork.World Tid (Shared T) (Frame T))
    (h : (forkSystem x).initial w) : ∀ s ∈ w, ∀ t, s.stack t = [] := by
  obtain rfl : w = [new x] := h
  intro s hs t
  rw [List.mem_singleton.mp hs]
  rfl

/-- The tid under which the frame's call of `lock` goes on. -/
def Pc.caller : Pc → Option Tid
  | .rawLock tid => some tid
  | .acquire tid => some tid
  | .setWaiters tid _ => some tid
  | .wait tid _ => some tid
  | .waiting tid => some tid
  | .reload tid => some tid
  | _ => none

def Frame.caller (f : Frame T) : Option Tid := f.pc.caller

/-- The frame's call goes on under some thread's tid, perhaps one from before a fork. -/
def Frame.Fits (f : Frame T) : Prop := ∃ c, validTid c = true ∧ f.pc.Sound c

def Frame.Aborted (f : Frame T) : Prop := f.pc = .abort

/-- A caller that finds another tid in the word goes on to the waiters bit or to sleep. -/
theorem rawLockContended_other {t u : Tid} {w : Word} (hu : validTid u = true)
    (hw : HeldBy u w) (ht : t ≠ u) :
    (rawLockContended t w).phase = .contended ∧ (rawLockContended t w).caller = some t := by
  have hne : w &&& FUTEX_TID_MASK ≠ t := by
    rw [hw.holder hu]
    exact ht.symm
  unfold rawLockContended
  rw [if_neg hne, if_neg (hw.ne_zero hu)]
  split_ifs <;> exact ⟨rfl, rfl⟩

/-- A call under the tid in the word is refused by its next step. -/
theorem Acts.refuse {t c : Tid} {a : Action T} {s s' : Shared T} {f f' : Frame T}
    (h : Acts t s a f s' f') (hphase : f.phase = .starting) (hcaller : f.caller = some c)
    (hby : OwnedBy c s) : f'.phase = .refused ∧ f'.guards = f.guards ∧ s' = s := by
  cases h with
  | take hw => exact absurd hw (hby.2.ne_zero hby.1)
  | contend =>
    obtain rfl := Option.some.inj hcaller
    refine ⟨?_, rfl, rfl⟩
    exact (rawLockContended_phase _ _).trans (if_pos (hby.2.holder hby.1))
  | @ret res gs => rcases res with ⟨⟨⟩⟩ | ⟨⟩ <;> simp [Frame.phase, Pc.phase] at hphase
  | _ => simp [Frame.phase, Pc.phase] at hphase

/-- A call under another tid than that in the word stays in the contended loop. -/
theorem Acts.block {t c u : Tid} {a : Action T} {s s' : Shared T} {f f' : Frame T}
    (h : Acts t s a f s' f') (hphase : f.phase = .starting ∨ f.phase = .contended)
    (hcaller : f.caller = some c) (hby : OwnedBy u s) (hc : c ≠ u) :
    f'.phase = .contended ∧ f'.guards = f.guards ∧ f'.caller = some c := by
  have hne := hby.2.ne_zero hby.1
  have hother := rawLockContended_other hby.1 hby.2 hc
  cases h with
  | take hw => exact absurd hw hne
  | takeContended hw => exact absurd hw hne
  | contend =>
    obtain rfl := Option.some.inj hcaller
    exact ⟨hother.1, rfl, hother.2⟩
  | loseAcquire =>
    obtain rfl := Option.some.inj hcaller
    exact ⟨hother.1, rfl, hother.2⟩
  | loseWaiters =>
    obtain rfl := Option.some.inj hcaller
    exact ⟨hother.1, rfl, hother.2⟩
  | load =>
    obtain rfl := Option.some.inj hcaller
    exact ⟨hother.1, rfl, hother.2⟩
  | setWaiters _ => exact ⟨rfl, rfl, hcaller⟩
  | sleep _ => exact ⟨rfl, rfl, hcaller⟩
  | eagain _ => exact ⟨rfl, rfl, hcaller⟩
  | woken _ => exact ⟨rfl, rfl, hcaller⟩
  | spuriousWake => exact ⟨rfl, rfl, hcaller⟩
  | @ret res gs => rcases res with ⟨⟨⟩⟩ | ⟨⟩ <;> simp [Frame.phase, Pc.phase] at hphase
  | _ => simp [Frame.phase, Pc.phase] at hphase

theorem lockCode (T : Type*) :
    LockCode (program T) (forking T) view Frame.phase Frame.caller Frame.Fits Frame.Aborted
      .lock .drop where
  conserves := conserves
  entry := ⟨1, by decide, trivial⟩
  deliver _ _ _ := ⟨⟨id, fun _ => id⟩, id, rfl, rfl⟩
  handOut f g f' g' h := by
    obtain ⟨gs, rfl, rfl, rfl⟩ := handOut_cases h
    refine ⟨fun hg hf => ⟨hg, hf⟩, rfl, rfl, fun r hr => ?_⟩
    exact List.mem_append_right _ hr
  copy _ := ⟨id, fun _ => id⟩
  share _ _ := .refl _ _
  act t a g f g' f' ht hf ha := by
    obtain ⟨c, hc, hs⟩ := hf
    have hacts : Acts t g a f g' f' := act_cases ha
    refine ⟨?_, c, hacts.effect hs hc⟩
    rcases hacts.sound_or hs with h | h
    · exact ⟨c, hc, h⟩
    · exact ⟨t, ht, h⟩
  inside f hf := by
    obtain ⟨pc, gs⟩ := f
    cases pc <;> simp [Frame.phase, Pc.phase, program, returns, handOut] at hf ⊢
  startsAt := lock_startsAt
  calls t g f g' f' h := by
    have hacts : Acts t g .lock f g' f' := act_cases h
    cases hacts with
    | lock => rfl
  refuse t a g f g' f' c hphase hcaller hby h :=
    (act_cases h : Acts t g a f g' f').refuse hphase hcaller hby
  refused t a g f g' f' hphase h := by
    have hacts : Acts t g a f g' f' := act_cases h
    cases hacts with
    | ret => exact ⟨rfl, rfl, rfl⟩
    | _ => simp [Frame.phase, Pc.phase] at hphase
  block t a g f g' f' c c' hphase hcaller hby hc h :=
    (act_cases h : Acts t g a f g' f').block hphase hcaller hby hc
  enabled := call_enabled
  drop t g f g' f' h := by
    have hacts : Acts t g .drop f g' f' := act_cases h
    cases hacts with
    | @drop r gs =>
      refine ⟨r, gs, rfl, fun hby => ⟨rfl, ?_⟩⟩
      exact rawUnlock_ne_abort hby.1 hby.2

end SignalCrates.FutexLock
