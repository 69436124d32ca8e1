import SignalCrates.FutexFork
import SignalCrates.PipeFork

/-! Reentrancy detection of both locks after forks. -/
namespace SignalCrates.Reentrancy
open SignalLock TransitionSystem InterruptStack Fork

variable {T : Type*}

/-- In every process a guard can be dropped, inherited or not, and frees that process's
copy. A call of `lock` by the thread that owns a guard is refused exactly if the guard
carries the thread's present tid, and never returns otherwise. -/
theorem fork_detection_exact (x : T) (capacity : ℕ) :
    ForkSafe (FutexLock.program T) (FutexLock.forking T) FutexLock.view FutexLock.Frame.phase
      FutexLock.Frame.Aborted .lock .drop (FutexLock.forkSystem x).initial ∧
    ForkSafe (PipeLock.program T capacity) (PipeLock.forking T) PipeLock.view
      PipeLock.Frame.phase PipeLock.Frame.Aborted .lock .drop
      (PipeLock.forkSystem x capacity).initial := by
  constructor
  · exact forkSafe (FutexLock.lockCode T) (FutexLock.forkSystem_initial x)
  · exact forkSafe (PipeLock.lockCode T capacity) (PipeLock.forkSystem_initial x capacity)

/-- Thread 1 takes the lock and forks; its copy is thread 2 of process 1. -/
def futexInherited : List (Event Tid (FutexLock.Action Unit)) :=
  [.step 0 (.spawn 1), .step 0 (.act 1 .lock), .step 0 (.act 1 (.exchange false id)),
    .step 0 (.act 1 .ret), .fork 0 1 2]

def pipeInherited : List (Event Tid (PipeLock.Action Unit)) :=
  [.step 0 (.spawn 1), .step 0 (.act 1 .lock), .step 0 (.act 1 (.op (.win 1) id)),
    .step 0 (.act 1 .ret), .fork 0 1 2]

/-- In process 0 the guard is the caller's own, and the copy can drop the one it has. -/
theorem fork_detection_exact_inherited :
    ∃ w, run (FutexLock.forkSystem ()) [FutexLock.new ()] futexInherited = some w ∧
      (∃ w₀, (FutexLock.forkSystem ()).next w (.step 0 (.act 1 .lock)) = some w₀ ∧
        Refuses (FutexLock.program Unit) (FutexLock.forking Unit) FutexLock.Frame.phase 0 1 w₀) ∧
      ∃ w', (FutexLock.forkSystem ()).next w (.step 1 (.act 2 .drop)) = some w' ∧
        ∃ s' f fs, w'[1]? = some s' ∧ s'.stack 2 = f :: fs ∧ ¬ f.Aborted ∧ s'.shared.word = 0 := by
  have hw : run (FutexLock.forkSystem ()) [FutexLock.new ()] futexInherited = some _ := rfl
  have hr : Reach (FutexLock.forkSystem ()) anyStep _ :=
    (Reach.initial rfl).run (fun _ _ _ => trivial) hw
  obtain ⟨hsafe, -⟩ := fork_detection_exact () 1
  obtain ⟨-, hown⟩ := hsafe _ hr 0 _ 1 _ rfl List.mem_cons_self
  obtain ⟨hdrop, -⟩ := hsafe _ hr 1 _ 2 _ rfl List.mem_cons_self
  exact ⟨_, hw, ⟨_, rfl, (hown _ rfl).2.1.mpr rfl⟩, _, rfl, hdrop _ rfl⟩

/-- The copy's guard carries tid 1, and its call under tid 2 is not refused. -/
theorem inherited_guard_undetected :
    (¬ ∀ w, Reach (FutexLock.forkSystem ()) anyStep w → ∀ p s t w₀, w[p]? = some s →
      FutexLock.guards s t ≠ [] →
      (FutexLock.forkSystem ()).next w (.step p (.act t .lock)) = some w₀ →
      Refuses (FutexLock.program Unit) (FutexLock.forking Unit) FutexLock.Frame.phase p t w₀) ∧
    ¬ ∀ w, Reach (PipeLock.forkSystem () 1) anyStep w → ∀ p s t w₀, w[p]? = some s →
      PipeLock.guards s t ≠ [] →
      (PipeLock.forkSystem () 1).next w (.step p (.act t .lock)) = some w₀ →
      Refuses (PipeLock.program Unit 1) (PipeLock.forking Unit) PipeLock.Frame.phase p t w₀ := by
  constructor
  · intro h
    have hw : run (FutexLock.forkSystem ()) [FutexLock.new ()] futexInherited = some _ := rfl
    have hr : Reach (FutexLock.forkSystem ()) anyStep _ :=
      (Reach.initial rfl).run (fun _ _ _ => trivial) hw
    refine not_refuses_inherited (FutexLock.lockCode Unit) (FutexLock.forkSystem_initial ()) hr
      (p := 1) (t := 2) rfl List.mem_cons_self ?_ rfl
      (h _ hr 1 _ 2 _ rfl (List.cons_ne_nil _ _) rfl)
    change (1 : Tid) ≠ 2
    decide
  · intro h
    have hw : run (PipeLock.forkSystem () 1) [PipeLock.new () 0] pipeInherited = some _ := rfl
    have hnew : Reach (PipeLock.forkSystem () 1) anyStep [PipeLock.new () 0] :=
      .initial ⟨0, rfl⟩
    have hr : Reach (PipeLock.forkSystem () 1) anyStep _ := hnew.run (fun _ _ _ => trivial) hw
    refine not_refuses_inherited (PipeLock.lockCode Unit 1) (PipeLock.forkSystem_initial () 1) hr
      (p := 1) (t := 2) rfl List.mem_cons_self ?_ rfl
      (h _ hr 1 _ 2 _ rfl (List.cons_ne_nil _ _) rfl)
    change (1 : Tid) ≠ 2
    decide

end SignalCrates.Reentrancy
