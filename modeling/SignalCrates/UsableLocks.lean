import SignalCrates.LockClient
import SignalCrates.Reentrancy

/-! FutexLock and PipeLock as the code that uses them sees them. -/
namespace SignalCrates
open TransitionSystem InterruptStack LockCall LockClient SignalLock

variable {T : Type*}

namespace FutexLock

def Pc.idle : Pc → Bool
  | .client => true
  | _ => false

def Action.kind : Action T → Kind
  | .lock => .call
  | .access _ => .access
  | .drop => .drop
  | _ => .inner

def asLock (T : Type*) : Lock Tid (Shared T) (Frame T) (Action T) (FutexLockGuard T) where
  program := program T
  kind := Action.kind
  phase := Frame.phase
  idle f := f.pc.idle
  held := Frame.guards

theorem rawLockContended_calling (tid : Tid) (w : FutexWord.Word) :
    (rawLockContended tid w).phase ≠ .outside ∧ (rawLockContended tid w).phase ≠ .granted := by
  rw [rawLockContended_phase]
  split_ifs <;> simp

theorem Acts.does {t : Tid} {s s' : Shared T} {a : Action T} {f f' : Frame T}
    (h : Acts t s a f s' f') : (asLock T).Does a.kind f f' := by
  have hcontend {pc pc' : Pc} {gs : List (FutexLockGuard T)}
      (hp : pc.phase ≠ .outside ∧ pc.phase ≠ .granted ∧ pc.phase ≠ .refused)
      (hp' : pc'.phase ≠ .outside ∧ pc'.phase ≠ .granted) :
      (asLock T).Does .inner ⟨pc, gs⟩ ⟨pc', gs⟩ := .contend hp hp' rfl
  cases h with
  | lock => exact .call rfl rfl rfl
  | take _ => exact .grant ⟨by rintro ⟨⟩, by rintro ⟨⟩, by rintro ⟨⟩⟩ rfl rfl
  | contend => exact hcontend (by simp [Pc.phase]) (rawLockContended_calling _ _)
  | takeContended _ => exact .grant ⟨by rintro ⟨⟩, by rintro ⟨⟩, by rintro ⟨⟩⟩ rfl rfl
  | loseAcquire => exact hcontend (by simp [Pc.phase]) (rawLockContended_calling _ _)
  | setWaiters _ => exact hcontend (by simp [Pc.phase]) (by simp [Pc.phase])
  | loseWaiters => exact hcontend (by simp [Pc.phase]) (rawLockContended_calling _ _)
  | sleep _ => exact hcontend (by simp [Pc.phase]) (by simp [Pc.phase])
  | eagain _ => exact hcontend (by simp [Pc.phase]) (by simp [Pc.phase])
  | woken _ => exact hcontend (by simp [Pc.phase]) (by simp [Pc.phase])
  | spuriousWake => exact hcontend (by simp [Pc.phase]) (by simp [Pc.phase])
  | load => exact hcontend (by simp [Pc.phase]) (rawLockContended_calling _ _)
  | @ret res _ =>
    rcases res with ⟨⟨⟩⟩ | ⟨⟩
    · exact .refused rfl rfl rfl
    · exact .granted rfl (.inr rfl) rfl
  | access _ => exact .access rfl rfl rfl
  | drop => exact .drop rfl (rawUnlock_phase _ _) rfl
  | wakeNone _ => exact .leave rfl rfl rfl rfl
  | wakeSome _ => exact .leave rfl rfl rfl rfl

theorem usable (x : T) : (asLock T).Usable (system x).initial noHandOut where
  calls := callCode x
  allowed s l hl := by
    cases l with
    | handOut t => exact absurd rfl (hl t)
    | _ => trivial
  does t a g f g' f' h := (act_cases h).does
  idle_phase f h := by
    obtain ⟨pc, gs⟩ := f
    cases pc <;> first | rfl | cases h
  entry := rfl
  deliver _ _ _ := rfl

end FutexLock

namespace PipeLock

def Pc.idle : Pc → Bool
  | .client => true
  | _ => false

def Action.kind : Action T → Kind
  | .lock => .call
  | .access _ => .access
  | .drop => .drop
  | _ => .inner

def asLock (T : Type*) (capacity : ℕ) :
    Lock Tid (Shared T) (Frame T) (Action T) (PipeLockGuard T) where
  program := program T capacity
  kind := Action.kind
  phase := Frame.phase
  idle f := f.pc.idle
  held := Frame.guards

theorem lockContended_calling (tid holder : Tid) :
    (lockContended tid holder).phase ≠ .outside ∧ (lockContended tid holder).phase ≠ .granted := by
  rw [lockContended_phase]
  split_ifs <;> simp

theorem retry_calling (tid holder : Tid) :
    (retry tid holder).phase ≠ .outside ∧ (retry tid holder).phase ≠ .granted := by
  unfold retry
  split_ifs <;> simp [Pc.phase]

theorem Acts.does {capacity : ℕ} {t : Tid} {s s' : Shared T} {a : Action T} {f f' : Frame T}
    (h : Acts capacity t s a f s' f') : (asLock T capacity).Does a.kind f f' := by
  have hcontend {pc pc' : Pc} {gs : List (PipeLockGuard T)}
      (hp : pc.phase ≠ .outside ∧ pc.phase ≠ .granted ∧ pc.phase ≠ .refused)
      (hp' : pc'.phase ≠ .outside ∧ pc'.phase ≠ .granted) :
      (asLock T capacity).Does .inner ⟨pc, gs⟩ ⟨pc', gs⟩ := .contend hp hp' rfl
  cases h with
  | lock => exact .call rfl rfl rfl
  | win _ => exact .grant ⟨by rintro ⟨⟩, by rintro ⟨⟩, by rintro ⟨⟩⟩ rfl rfl
  | winContended _ => exact .grant ⟨by rintro ⟨⟩, by rintro ⟨⟩, by rintro ⟨⟩⟩ rfl rfl
  | contend => exact hcontend (by simp [Pc.phase]) (lockContended_calling _ _)
  | lose => exact hcontend (by simp [Pc.phase]) (retry_calling _ _)
  | fetchAdd => exact hcontend (by simp [Pc.phase]) (by simp [Pc.phase])
  | fence => exact hcontend (by simp [Pc.phase]) (by simp [Pc.phase])
  | @fetchSub _ res _ =>
    rcases res with ⟨⟨⟩⟩ | ⟨⟩
    · exact hcontend (by simp [Pc.phase]) (by simp [Pc.phase])
    · exact .granted rfl (.inl rfl) rfl
  | enterRead => exact hcontend (by simp [Pc.phase]) (by simp [Pc.phase])
  | read _ => exact hcontend (by simp [Pc.phase]) (by simp [Pc.phase])
  | fenceUnlock => exact .leave rfl rfl rfl rfl
  | load =>
    refine .leave rfl rfl ?_ rfl
    change Pc.phase (if _ then _ else _) = _
    split_ifs <;> rfl
  | write _ => exact .leave rfl rfl rfl rfl
  | writeFull _ => exact .leave rfl rfl rfl rfl
  | writeEintr => exact .leave rfl rfl rfl rfl
  | @ret res _ =>
    rcases res with ⟨⟨⟩⟩ | ⟨⟩
    · exact .refused rfl rfl rfl
    · exact .granted rfl (.inr rfl) rfl
  | access _ => exact .access rfl rfl rfl
  | drop => exact .drop rfl (unlock_phase _ _ _) rfl

theorem usable (x : T) (capacity : ℕ) :
    (asLock T capacity).Usable (system x capacity).initial noHandOut where
  calls := callCode x capacity
  allowed s l hl := by
    cases l with
    | handOut t => exact absurd rfl (hl t)
    | _ => trivial
  does t a g f g' f' h := (act_cases h).does
  idle_phase f h := by
    obtain ⟨pc, gs⟩ := f
    cases pc <;> first | rfl | cases h
  entry := rfl
  deliver t g f := by
    change ((f.pc.step .readEintr).getD f.pc).idle = f.pc.idle
    rcases interrupted_cases f.pc with ⟨tid, hpc, he⟩ | he
    · rw [he, hpc]
      rfl
    · rw [he]

end PipeLock

end SignalCrates
