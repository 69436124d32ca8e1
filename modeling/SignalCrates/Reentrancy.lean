import SignalCrates.FutexReentrancy
import SignalCrates.PipeReentrancy

/-! Reentrancy detection of both locks, for guards dropped by the frame that took them. -/
namespace SignalCrates.Reentrancy
open TransitionSystem InterruptStack LockCall SignalLock

variable {T : Type*}

/-- A call of `lock` begins without an effect. If its thread holds the lock, the call is
refused without blocking and without any effect of its own, whatever happens meanwhile; if
not, it never is. Over both implementations of the lock. -/
theorem recursive_exact (x : T) (capacity : ℕ) :
    (∀ s t f below s₀, Reach (FutexLock.system x) FutexLock.noHandOut s →
      s.stack t = f :: below → (FutexLock.system x).next s (.act t .lock) = some s₀ →
      Starts FutexLock.Frame.guards FutexLock.Frame.phase t f below s s₀ ∧
      ∀ s₁, During (FutexLock.program T) FutexLock.noHandOut FutexLock.Frame.phase t below
        s₀ s₁ →
        (FutexLock.guards s t ≠ [] → Refuses (FutexLock.program T) FutexLock.Frame.guards
          FutexLock.Frame.phase t below s₁) ∧
        (FutexLock.guards s t = [] → NotRefused FutexLock.Frame.phase t below s₁)) ∧
    (∀ s t f below s₀, Reach (PipeLock.system x capacity) PipeLock.noHandOut s →
      s.stack t = f :: below → (PipeLock.system x capacity).next s (.act t .lock) = some s₀ →
      Starts PipeLock.Frame.guards PipeLock.Frame.phase t f below s s₀ ∧
      ∀ s₁, During (PipeLock.program T capacity) PipeLock.noHandOut PipeLock.Frame.phase t below
        s₀ s₁ →
        (PipeLock.guards s t ≠ [] → Refuses (PipeLock.program T capacity) PipeLock.Frame.guards
          PipeLock.Frame.phase t below s₁) ∧
        (PipeLock.guards s t = [] → NotRefused PipeLock.Frame.phase t below s₁)) := by
  constructor
  · intro s t f below s₀ hr hs hn
    exact call_exact (FutexLock.callCode x) FutexLock.lock_startsAt hr hs trivial hn
  · intro s t f below s₀ hr hs hn
    exact call_exact (PipeLock.callCode x capacity) (PipeLock.lock_startsAt capacity) hr hs
      trivial hn

/-- Thread 1 holds the lock and a handler runs on it. -/
def futexHeld : List (Label Tid (FutexLock.Action Unit)) :=
  [.spawn 1, .act 1 .lock, .act 1 (.exchange false id), .act 1 .ret, .signal 1]

def pipeHeld : List (Label Tid (PipeLock.Action Unit)) :=
  [.spawn 1, .act 1 .lock, .act 1 (.op (.win 1) id), .act 1 .ret, .signal 1]

/-- Thread 2 is about to call `lock` while thread 1 holds it. -/
def futexTaken : List (Label Tid (FutexLock.Action Unit)) :=
  [.spawn 1, .act 1 .lock, .act 1 (.exchange false id), .act 1 .ret, .spawn 2]

def pipeTaken : List (Label Tid (PipeLock.Action Unit)) :=
  [.spawn 1, .act 1 .lock, .act 1 (.op (.win 1) id), .act 1 .ret, .spawn 2]

/-- The call sleeps until thread 1 drops its guard, and a handler takes and frees the lock
before the call does. -/
def futexWaits : List (Label Tid (FutexLock.Action Unit)) :=
  [.act 2 (.exchange false id), .act 2 (.exchange false id), .act 2 .wait, .act 1 .drop,
    .act 1 (.wakeOne (some 2)), .signal 2, .act 2 .lock, .act 2 (.exchange false id), .act 2 .ret,
    .act 2 .drop, .finish 2, .act 2 .woken, .act 2 .load, .act 2 (.exchange false id)]

def pipeWaits : List (Label Tid (PipeLock.Action Unit)) :=
  [.act 2 (.op (.lose 1) id), .act 2 (.op .fetchAdd id), .act 2 (.op .fence id),
    .act 2 (.op (.lose 1) id), .act 2 (.op .enterRead id), .act 1 .drop, .act 1 (.op .fence id),
    .act 1 (.op (.load 1) id), .act 1 (.op .write id), .act 2 (.op .read id), .signal 2,
    .act 2 .lock, .act 2 (.op (.win 2) id), .act 2 .ret, .act 2 .drop, .act 2 (.op .fence id),
    .act 2 (.op (.load 1) id), .act 2 (.op .write id), .finish 2, .act 2 (.op (.win 2) id)]

/-- Both answers of both locks: a refused call, and one that waits and gets the lock. -/
theorem recursive_exact_answers :
    (∃ s below s₀ s₁, run (FutexLock.system ()) (FutexLock.new ()) futexHeld = some s ∧
      FutexLock.guards s 1 ≠ [] ∧ (FutexLock.system ()).next s (.act 1 .lock) = some s₀ ∧
      run (FutexLock.system ()) s₀ [.act 1 (.exchange false id)] = some s₁ ∧
      s₁.stack 1 = ⟨.ret (.error .recursive), []⟩ :: below ∧
      Refuses (FutexLock.program Unit) FutexLock.Frame.guards FutexLock.Frame.phase 1 below s₁) ∧
    (∃ s s₀ s₁, run (FutexLock.system ()) (FutexLock.new ()) futexTaken = some s ∧
      FutexLock.guards s 2 = [] ∧ (FutexLock.system ()).next s (.act 2 .lock) = some s₀ ∧
      run (FutexLock.system ()) s₀ futexWaits = some s₁ ∧
      (∃ gs, s₁.stack 2 = [⟨.ret (.ok ()), gs⟩]) ∧ NotRefused FutexLock.Frame.phase 2 [] s₁) ∧
    (∃ s below s₀ s₁, run (PipeLock.system () 1) (PipeLock.new () 0) pipeHeld = some s ∧
      PipeLock.guards s 1 ≠ [] ∧ (PipeLock.system () 1).next s (.act 1 .lock) = some s₀ ∧
      run (PipeLock.system () 1) s₀ [.act 1 (.op (.lose 1) id)] = some s₁ ∧
      s₁.stack 1 = ⟨.ret (.error .recursive), []⟩ :: below ∧
      Refuses (PipeLock.program Unit 1) PipeLock.Frame.guards PipeLock.Frame.phase 1 below s₁) ∧
    ∃ s s₀ s₁, run (PipeLock.system () 1) (PipeLock.new () 0) pipeTaken = some s ∧
      PipeLock.guards s 2 = [] ∧ (PipeLock.system () 1).next s (.act 2 .lock) = some s₀ ∧
      run (PipeLock.system () 1) s₀ pipeWaits = some s₁ ∧
      (∃ gs, s₁.stack 2 = [⟨.fetchSub (.ok ()), gs⟩]) ∧
      NotRefused PipeLock.Frame.phase 2 [] s₁ := by
  obtain ⟨hfutex, hpipe⟩ := recursive_exact () 1
  refine ⟨?_, ?_, ?_, ?_⟩
  · have hs : run (FutexLock.system ()) (FutexLock.new ()) futexHeld = some _ := rfl
    have hr : Reach (FutexLock.system ()) FutexLock.noHandOut _ :=
      (Reach.initial rfl).run (by simp [futexHeld, FutexLock.noHandOut]) hs
    have hcall := hfutex _ 1 _ _ _ hr rfl rfl
    have hd := hcall.2 _ <| During.start rfl rfl
      |>.stepTop (l := .act 1 (.exchange false id)) trivial rfl rfl (by decide)
    exact ⟨_, _, _, _, hs, List.cons_ne_nil _ _, rfl, rfl, rfl, hd.1 (List.cons_ne_nil _ _)⟩
  · have hs : run (FutexLock.system ()) (FutexLock.new ()) futexTaken = some _ := rfl
    have hr : Reach (FutexLock.system ()) FutexLock.noHandOut _ :=
      (Reach.initial rfl).run (by simp [futexTaken, FutexLock.noHandOut]) hs
    have hcall := hfutex _ 2 _ _ _ hr rfl rfl
    have hd := hcall.2 _ <| During.start rfl rfl
      |>.stepTop (l := .act 2 (.exchange false id)) trivial rfl rfl (by decide)
      |>.stepTop (l := .act 2 (.exchange false id)) trivial rfl rfl (by decide)
      |>.stepTop (l := .act 2 .wait) trivial rfl rfl (by decide)
      |>.stepTop (l := .act 1 .drop) trivial rfl rfl (by decide)
      |>.stepTop (l := .act 1 (.wakeOne (some 2))) trivial rfl rfl (by decide)
      |>.stepHandler (l := .signal 2) trivial rfl rfl (by decide)
      |>.stepHandler (l := .act 2 .lock) trivial rfl rfl (by decide)
      |>.stepHandler (l := .act 2 (.exchange false id)) trivial rfl rfl (by decide)
      |>.stepHandler (l := .act 2 .ret) trivial rfl rfl (by decide)
      |>.stepHandler (l := .act 2 .drop) trivial rfl rfl (by decide)
      |>.stepTop (l := .finish 2) trivial rfl rfl (by decide)
      |>.stepTop (l := .act 2 .woken) trivial rfl rfl (by decide)
      |>.stepTop (l := .act 2 .load) trivial rfl rfl (by decide)
      |>.stepTop (l := .act 2 (.exchange false id)) trivial rfl rfl (by decide)
    exact ⟨_, _, _, hs, rfl, rfl, rfl, ⟨_, rfl⟩, hd.2 rfl⟩
  · have hs : run (PipeLock.system () 1) (PipeLock.new () 0) pipeHeld = some _ := rfl
    have hnew : Reach (PipeLock.system () 1) PipeLock.noHandOut (PipeLock.new () 0) :=
      .initial ⟨0, rfl⟩
    have hr : Reach (PipeLock.system () 1) PipeLock.noHandOut _ :=
      hnew.run (by simp [pipeHeld, PipeLock.noHandOut]) hs
    have hcall := hpipe _ 1 _ _ _ hr rfl rfl
    have hd := hcall.2 _ <| During.start rfl rfl
      |>.stepTop (l := .act 1 (.op (.lose 1) id)) trivial rfl rfl (by decide)
    exact ⟨_, _, _, _, hs, List.cons_ne_nil _ _, rfl, rfl, rfl, hd.1 (List.cons_ne_nil _ _)⟩
  · have hs : run (PipeLock.system () 1) (PipeLock.new () 0) pipeTaken = some _ := rfl
    have hnew : Reach (PipeLock.system () 1) PipeLock.noHandOut (PipeLock.new () 0) :=
      .initial ⟨0, rfl⟩
    have hr : Reach (PipeLock.system () 1) PipeLock.noHandOut _ :=
      hnew.run (by simp [pipeTaken, PipeLock.noHandOut]) hs
    have hcall := hpipe _ 2 _ _ _ hr rfl rfl
    have hd := hcall.2 _ <| During.start rfl rfl
      |>.stepTop (l := .act 2 (.op (.lose 1) id)) trivial rfl rfl (by decide)
      |>.stepTop (l := .act 2 (.op .fetchAdd id)) trivial rfl rfl (by decide)
      |>.stepTop (l := .act 2 (.op .fence id)) trivial rfl rfl (by decide)
      |>.stepTop (l := .act 2 (.op (.lose 1) id)) trivial rfl rfl (by decide)
      |>.stepTop (l := .act 2 (.op .enterRead id)) trivial rfl rfl (by decide)
      |>.stepTop (l := .act 1 .drop) trivial rfl rfl (by decide)
      |>.stepTop (l := .act 1 (.op .fence id)) trivial rfl rfl (by decide)
      |>.stepTop (l := .act 1 (.op (.load 1) id)) trivial rfl rfl (by decide)
      |>.stepTop (l := .act 1 (.op .write id)) trivial rfl rfl (by decide)
      |>.stepTop (l := .act 2 (.op .read id)) trivial rfl rfl (by decide)
      |>.stepHandler (l := .signal 2) trivial rfl rfl (by decide)
      |>.stepHandler (l := .act 2 .lock) trivial rfl rfl (by decide)
      |>.stepHandler (l := .act 2 (.op (.win 2) id)) trivial rfl rfl (by decide)
      |>.stepHandler (l := .act 2 .ret) trivial rfl rfl (by decide)
      |>.stepHandler (l := .act 2 .drop) trivial rfl rfl (by decide)
      |>.stepHandler (l := .act 2 (.op .fence id)) trivial rfl rfl (by decide)
      |>.stepHandler (l := .act 2 (.op (.load 1) id)) trivial rfl rfl (by decide)
      |>.stepHandler (l := .act 2 (.op .write id)) trivial rfl rfl (by decide)
      |>.stepTop (l := .finish 2) trivial rfl rfl (by decide)
      |>.stepTop (l := .act 2 (.op (.win 2) id)) trivial rfl rfl (by decide)
    exact ⟨_, _, _, hs, rfl, rfl, rfl, ⟨_, rfl⟩, hd.2 rfl⟩

end SignalCrates.Reentrancy
