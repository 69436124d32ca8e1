import SignalCrates.PipeReentrancy
import SignalCrates.ForkCall

/-!
# PipeLock after a fork

`holder_tid`, `waiters` and the guards are copied, and the descriptors of the copy still
name the parent's pipe.
-/
namespace SignalCrates.PipeLock
open SignalLock TransitionSystem InterruptStack LockCall CellRefinement Fork

variable {T : Type*}

/-- `fork` is called by the client's code, or by a handler's. -/
def forking (T : Type*) : Forking (Shared T) (Frame T) where
  forks f :=
    match f.pc with
    | .client => true
    | _ => false
  copy s := s
  share s s' := { s' with bytes := s.bytes }

/-- One process with a new lock. -/
def forkSystem (x : T) (capacity : ℕ) :
    System (Fork.World Tid (Shared T) (Frame T)) (Event Tid (Action T)) where
  initial w := ∃ stale, w = [new x stale]
  next := Fork.next (program T capacity) (forking T)

theorem forkSystem_initial (x : T) (capacity : ℕ) (w : Fork.World Tid (Shared T) (Frame T))
    (h : (forkSystem x capacity).initial w) : ∀ s ∈ w, ∀ t, s.stack t = [] := by
  obtain ⟨stale, rfl⟩ := h
  intro s hs t
  rw [List.mem_singleton.mp hs]
  rfl

/-- The tid under which the frame's call of `lock` goes on. -/
def Pc.caller : Pc → Option Tid
  | .lock tid => some tid
  | .fetchAdd tid => some tid
  | .fence tid => some tid
  | .exchange tid => some tid
  | .read tid => some tid
  | .reading tid => some tid
  | _ => none

def Frame.caller (f : Frame T) : Option Tid := f.pc.caller

/-- The frame's call goes on under some thread's tid, perhaps one from before a fork. -/
def Frame.Fits (f : Frame T) : Prop := ∃ c, c ≠ 0 ∧ f.pc.Sound c

def Frame.Aborted (f : Frame T) : Prop := f.pc = .abort

theorem interrupted_caller (pc : Pc) : ((pc.step .readEintr).getD pc).caller = pc.caller := by
  rcases interrupted_cases pc with ⟨tid, rfl, he⟩ | he
  · rw [he]
    rfl
  · rw [he]

/-- A caller that finds another tid in `holder_tid` goes on to wait for it. -/
theorem lockContended_other {t u : Tid} (ht : t ≠ u) : lockContended t u = .fetchAdd t := by
  unfold lockContended
  rw [if_neg ht.symm]

theorem retry_other {t u : Tid} (hu : u ≠ 0) (ht : t ≠ u) : retry t u = .read t := by
  unfold retry
  rw [if_neg ht.symm, if_neg hu]

/-- A call under the tid in `holder_tid` is refused by its next step. -/
theorem Acts.refuse {capacity : ℕ} {t c : Tid} {a : Action T} {s s' : Shared T}
    {f f' : Frame T} (h : Acts capacity t s a f s' f') (hphase : f.phase = .starting)
    (hcaller : f.caller = some c) (hby : OwnedBy c s) :
    f'.phase = .refused ∧ f'.guards = f.guards ∧ s' = s := by
  cases h with
  | win hw => exact absurd (hby.2.symm.trans hw) hby.1
  | contend =>
    obtain rfl := Option.some.inj hcaller
    exact ⟨(lockContended_phase _ _).trans (if_pos hby.2), rfl, rfl⟩
  | @fetchSub _ res gs => rcases res with ⟨⟨⟩⟩ | ⟨⟩ <;> simp [Frame.phase, Pc.phase] at hphase
  | @ret res gs => rcases res with ⟨⟨⟩⟩ | ⟨⟩ <;> simp [Frame.phase, Pc.phase] at hphase
  | _ => simp [Frame.phase, Pc.phase] at hphase

/-- A call under another tid than that in `holder_tid` stays in the contended loop. -/
theorem Acts.block {capacity : ℕ} {t c u : Tid} {a : Action T} {s s' : Shared T}
    {f f' : Frame T} (h : Acts capacity t s a f s' f')
    (hphase : f.phase = .starting ∨ f.phase = .contended) (hcaller : f.caller = some c)
    (hby : OwnedBy u s) (hc : c ≠ u) :
    f'.phase = .contended ∧ f'.guards = f.guards ∧ f'.caller = some c := by
  obtain ⟨hne, rfl⟩ := hby
  cases h with
  | win hw => exact absurd hw hne
  | winContended hw => exact absurd hw hne
  | contend =>
    obtain rfl := Option.some.inj hcaller
    rw [lockContended_other hc]
    exact ⟨rfl, rfl, rfl⟩
  | lose =>
    obtain rfl := Option.some.inj hcaller
    rw [retry_other hne hc]
    exact ⟨rfl, rfl, rfl⟩
  | fetchAdd => exact ⟨rfl, rfl, hcaller⟩
  | fence => exact ⟨rfl, rfl, hcaller⟩
  | enterRead => exact ⟨rfl, rfl, hcaller⟩
  | read _ => exact ⟨rfl, rfl, hcaller⟩
  | @fetchSub _ res gs => rcases res with ⟨⟨⟩⟩ | ⟨⟩ <;> simp [Frame.phase, Pc.phase] at hphase
  | @ret res gs => rcases res with ⟨⟨⟩⟩ | ⟨⟩ <;> simp [Frame.phase, Pc.phase] at hphase
  | _ => simp [Frame.phase, Pc.phase] at hphase

theorem lockCode (T : Type*) (capacity : ℕ) :
    LockCode (program T capacity) (forking T) view Frame.phase Frame.caller Frame.Fits
      Frame.Aborted .lock .drop where
  conserves := conserves capacity
  entry := ⟨1, by decide, trivial⟩
  deliver _ _ f := by
    refine ⟨.refl _ _, ?_, interrupted_phase f.pc, interrupted_caller f.pc⟩
    rintro ⟨c, hc, hs⟩
    exact ⟨c, hc, interrupted_sound hs⟩
  handOut f g f' g' h := by
    obtain ⟨gs, rfl, rfl, rfl⟩ := handOut_cases h
    refine ⟨fun hg hf => ⟨hg, hf⟩, rfl, rfl, fun r hr => ?_⟩
    exact List.mem_append_right _ hr
  copy _ := .refl _ _
  share _ _ := ⟨id, fun _ => id⟩
  act t a g f g' f' ht hf ha := by
    obtain ⟨c, hc, hs⟩ := hf
    have hacts : Acts capacity t g a f g' f' := act_cases ha
    refine ⟨?_, c, hacts.effect hs hc⟩
    rcases hacts.sound_or hs with h | h
    · exact ⟨c, hc, h⟩
    · exact ⟨t, by simpa [program, validTid] using ht, h⟩
  inside f hf := by
    obtain ⟨pc, gs⟩ := f
    cases pc <;> simp [Frame.phase, Pc.phase, program, returns, handOut] at hf ⊢
  startsAt := lock_startsAt capacity
  calls t g f g' f' h := by
    have hacts : Acts capacity t g .lock f g' f' := act_cases h
    cases hacts with
    | lock => rfl
  refuse t a g f g' f' c hphase hcaller hby h :=
    (act_cases h : Acts capacity t g a f g' f').refuse hphase hcaller hby
  refused t a g f g' f' hphase h := by
    have hacts : Acts capacity t g a f g' f' := act_cases h
    cases hacts with
    | ret => exact ⟨rfl, rfl, rfl⟩
    | @fetchSub _ res gs => rcases res with ⟨⟨⟩⟩ | ⟨⟩ <;> simp [Frame.phase, Pc.phase] at hphase
    | _ => simp [Frame.phase, Pc.phase] at hphase
  block t a g f g' f' c c' hphase hcaller hby hc h :=
    (act_cases h : Acts capacity t g a f g' f').block hphase hcaller hby hc
  enabled := call_enabled
  drop t g f g' f' h := by
    have hacts : Acts capacity t g .drop f g' f' := act_cases h
    cases hacts with
    | @drop r gs =>
      refine ⟨r, gs, rfl, fun hby => ⟨rfl, ?_⟩⟩
      obtain ⟨-, hholder⟩ := hby
      change unlock r.tid r.contended g.holderTid ≠ .abort
      rw [hholder]
      exact unlock_ne_abort _ _

end SignalCrates.PipeLock
