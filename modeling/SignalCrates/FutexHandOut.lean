import SignalCrates.FutexWake

/-!
# Guards that outlive the handler that took them

A waiter that was woken while a handler of its thread retook the lock on the fast path
leaves the loop with `Recursive`, and the wake that it consumed is lost unless
`keepsDuty` holds of that step.
-/
namespace SignalCrates.FutexLock
open SignalLock TransitionSystem InterruptStack ExclusiveCell FutexWord LockCall

variable {T : Type*}

/-- No guard is live, no frame owes a wake, and every frame inside the loop is asleep. -/
def Quiet (s : World T) : Prop :=
  (∀ t, guards s t = []) ∧ ∀ u above f below, s.stack u = above ++ f :: below →
    f.pc ≠ .wake ∧ (f.phase = .contended → above = [] ∧ u ∈ s.shared.queue)

theorem Quiet.not_carried {s : World T} (h : Quiet s) : ¬ Carried s := by
  rintro ⟨u, hu, f, hf, hd⟩
  obtain ⟨above, below, hs⟩ := List.append_of_mem hf
  obtain ⟨hwake, hloop⟩ := h.2 u above f below hs
  exact hd.elim hwake fun hd => hu (hloop hd).2

theorem duty_of_keepsDuty {x : T} {s : World T} (h : Reach (system x) keepsDuty s) :
    Duty s := by
  refine h.invariant ?_ ?_
  · rintro s rfl
    exact duty_new x
  · exact fun s l s' hr hI hl hn => duty_next hr hI hl hn

/-- In runs whose steps all keep the duty, nobody sleeps on a quiet lock. -/
theorem futex_recursive_exit_keeps_duty {x : T} {s : World T}
    (h : Reach (system x) keepsDuty s) (hq : Quiet s) : s.shared.queue = ∅ := by
  by_contra hne
  rcases duty_of_keepsDuty h (Finset.nonempty_iff_ne_empty.mpr hne) with hw | hc
  · rw [(word_eq_zero_iff h).mpr hq.1] at hw
    exact not_flagged_zero hw
  · exact hq.not_carried hc

/-- Threads 2 and 3 sleep while thread 1 holds the lock. -/
def twoSleepers : List (Label Tid (Action Unit)) :=
  [.spawn 1, .act 1 .lock, .act 1 (.exchange false id), .act 1 .ret,
    .spawn 2, .act 2 .lock, .act 2 (.exchange false id), .act 2 (.exchange false id), .act 2 .wait,
    .spawn 3, .act 3 .lock, .act 3 (.exchange false id), .act 3 .wait]

/-- Thread 1 wakes thread 2, whose handler takes the lock; thread 4 finds it taken, flags the
word and sleeps. -/
def flaggedAgain : List (Label Tid (Action Unit)) :=
  [.act 1 .drop, .act 1 (.wakeOne (some 2)), .finish 1,
    .signal 2, .act 2 .lock, .act 2 (.exchange false id), .act 2 .ret,
    .spawn 4, .act 4 .lock, .act 4 (.exchange false id), .act 4 (.exchange false id), .act 4 .wait]

/-- The handler leaves its guard to the waiter that it interrupted. -/
def handedOut : List (Label Tid (Action Unit)) := [.handOut 2, .finish 2, .act 2 .woken]

/-- The waiter returns `Recursive`, drops the guard and wakes thread 3. -/
def dropsGuard : List (Label Tid (Action Unit)) :=
  [.act 2 .ret, .act 2 .drop, .act 2 (.wakeOne (some 3)), .finish 2, .act 3 .woken]

/-- Thread `t` has the lock, drops its guard, wakes `u` and exits. -/
def passesOn (t : Tid) (u : Option Tid) : List (Label Tid (Action Unit)) :=
  [.act t .ret, .act t .drop, .act t (.wakeOne u), .finish t]

def everyoneLeaves : List (Label Tid (Action Unit)) :=
  .act 2 .load :: dropsGuard ++ [.act 3 .load, .act 3 (.exchange false id)] ++
    passesOn 3 (some 4) ++ [.act 4 .woken, .act 4 .load, .act 4 (.exchange false id)] ++
    passesOn 4 none

theorem keepsDuty_reach {x : T} {s : World T} (h : Reach (system x) noHandOut s) :
    Reach (system x) keepsDuty s := by
  induction h with
  | initial h => exact .initial h
  | step hr _ hs ih => exact .step ih (keepsDuty_of_noHandOut hr _) hs

theorem quiet_of_empty {s : World T} (h : ∀ t, s.stack t = []) : Quiet s := by
  constructor
  · intro t
    rw [guards, live, h t]
    rfl
  · intro u above f below hf
    simp [h u] at hf

/-- Thread 2 is about to leave with `Recursive` while threads 3 and 4 sleep, and both are
woken one after the other. -/
theorem futex_recursive_exit_keeps_duty_handedOut :
    ∃ s₁ s, run (system ()) (new ()) (twoSleepers ++ flaggedAgain ++ handedOut) = some s₁ ∧
      s₁.shared.queue = {3, 4} ∧
      (∃ g, s₁.stack 2 = [⟨.reload 2, [g]⟩] ∧ rawLockContended 2 s₁.shared.word =
        .ret (.error .recursive)) ∧
      run (system ()) s₁ everyoneLeaves = some s ∧ Quiet s ∧ s.shared.queue = ∅ := by
  have hflagged : run (system ()) (new ()) (twoSleepers ++ flaggedAgain) = some _ := rfl
  have hr : Reach (system ()) noHandOut _ :=
    (Reach.initial rfl).run (by simp [twoSleepers, flaggedAgain, noHandOut]) hflagged
  have hwoken : Reach (system ()) keepsDuty _ := (keepsDuty_reach hr).run
    (by simp [handedOut, keepsDuty]) (rfl : run (system ()) _ handedOut = some _)
  -- the word is flagged when the loop finds its own thread in it
  have hrefused : Reach (system ()) keepsDuty _ := .step hwoken (a := .act 2 .load)
    (by rintro f fs ⟨⟩ - -; exact .inl (by decide)) rfl
  have hdropped : Reach (system ()) keepsDuty _ := hrefused.run
    (by simp [dropsGuard, keepsDuty]) (rfl : run (system ()) _ dropsGuard = some _)
  have hload₃ : Reach (system ()) keepsDuty _ := .step hdropped (a := .act 3 .load)
    (by rintro f fs ⟨⟩ - h; exact absurd h (by decide)) rfl
  have hget₃ : Reach (system ()) keepsDuty _ := .step hload₃ (a := .act 3 (.exchange false id))
    (by rintro f fs ⟨⟩ - h; exact absurd h (by decide)) rfl
  have hwoken₄ : Reach (system ()) keepsDuty _ := .step
    (hget₃.run (by simp [passesOn, keepsDuty])
      (rfl : run (system ()) _ (passesOn 3 (some 4)) = some _)) (a := .act 4 .woken) trivial rfl
  have hload₄ : Reach (system ()) keepsDuty _ := .step hwoken₄ (a := .act 4 .load)
    (by rintro f fs ⟨⟩ - h; exact absurd h (by decide)) rfl
  have hget₄ : Reach (system ()) keepsDuty _ := .step hload₄ (a := .act 4 (.exchange false id))
    (by rintro f fs ⟨⟩ - h; exact absurd h (by decide)) rfl
  obtain ⟨s₁, s, hs₁, hqueue, hrecursive, hs, hreach, h₁, h₂, h₃, h₄⟩ : ∃ s₁ s,
      run (system ()) (new ()) (twoSleepers ++ flaggedAgain ++ handedOut) = some s₁ ∧
      s₁.shared.queue = {3, 4} ∧
      (∃ g, s₁.stack 2 = [⟨.reload 2, [g]⟩] ∧ rawLockContended 2 s₁.shared.word =
        .ret (.error .recursive)) ∧
      run (system ()) s₁ everyoneLeaves = some s ∧ Reach (system ()) keepsDuty s ∧
      s.stack 1 = [] ∧ s.stack 2 = [] ∧ s.stack 3 = [] ∧ s.stack 4 = [] :=
    ⟨_, _, rfl, by decide, ⟨_, rfl, rfl⟩, rfl, hget₄.run (by simp [passesOn, keepsDuty])
      (rfl : run (system ()) _ (passesOn 4 none) = some _), rfl, rfl, rfl, rfl⟩
  have hthreads : ∀ t ∈ (twoSleepers ++ flaggedAgain ++ handedOut ++ everyoneLeaves).map
      Label.thread, t = 1 ∨ t = 2 ∨ t = 3 ∨ t = 4 := by
    simp [twoSleepers, flaggedAgain, handedOut, everyoneLeaves, dropsGuard, passesOn,
      Label.thread]
  have hrun : run (system ()) (new ())
      (twoSleepers ++ flaggedAgain ++ handedOut ++ everyoneLeaves) = some s := by
    rw [run_append, hs₁, Option.bind_some, hs]
  have hquiet : Quiet s := by
    refine quiet_of_empty fun u => ?_
    by_cases hu : u ∈ (twoSleepers ++ flaggedAgain ++ handedOut ++ everyoneLeaves).map
      Label.thread
    · rcases hthreads u hu with rfl | rfl | rfl | rfl
      exacts [h₁, h₂, h₃, h₄]
    · exact run_stack_of_not_mem hu hrun
  exact ⟨s₁, s, hs₁, hqueue, hrecursive, hs, hquiet, futex_recursive_exit_keeps_duty hreach hquiet⟩

/-- Thread 1 wakes thread 2, whose handler takes the lock and leaves the guard to the
code it interrupted; that code returns `Recursive`, drops the guard and exits. -/
def leakedGuard : List (Label Tid (Action Unit)) :=
  [.act 1 .drop, .act 1 (.wakeOne (some 2)), .finish 1,
    .signal 2, .act 2 .lock, .act 2 (.exchange false id), .act 2 .ret, .handOut 2, .finish 2,
    .act 2 .woken, .act 2 .load, .act 2 .ret, .act 2 .drop, .finish 2]

/-- Thread 3 sleeps for ever: the lock is free and every other thread has exited. -/
theorem futex_recursive_exit_loses_wakeup :
    ¬ ∀ s : World Unit, Reach (system ()) anyStep s → Quiet s → s.shared.queue = ∅ := by
  intro h
  obtain ⟨s, hs, hq, h₁, h₂, h₃⟩ : ∃ s, run (system ()) (new ()) (twoSleepers ++ leakedGuard) =
      some s ∧ s.shared.queue = {3} ∧ s.stack 1 = [] ∧ s.stack 2 = [] ∧
      s.stack 3 = [⟨.waiting 3, []⟩] := ⟨_, rfl, by decide, rfl, rfl, rfl⟩
  have hr : Reach (system ()) anyStep s := (Reach.initial rfl).run (fun _ _ _ => trivial) hs
  have hthreads : ∀ t ∈ (twoSleepers ++ leakedGuard).map Label.thread,
      t = 1 ∨ t = 2 ∨ t = 3 := by
    simp [twoSleepers, leakedGuard, Label.thread]
  have hstack : ∀ u, u ≠ 3 → s.stack u = [] := by
    intro u hu
    by_cases hu₁ : u = 1
    · rw [hu₁, h₁]
    by_cases hu₂ : u = 2
    · rw [hu₂, h₂]
    refine run_stack_of_not_mem (fun hm => ?_) hs
    rcases hthreads u hm with h | h | h
    exacts [hu₁ h, hu₂ h, hu h]
  have hquiet : Quiet s := by
    constructor
    · intro t
      by_cases ht : t = 3
      · rw [guards, live, ht, h₃]
        rfl
      · rw [guards, live, hstack t ht]
        rfl
    · intro u above f below hf
      by_cases hu : u = 3
      · rw [hu, h₃, List.singleton_eq_append_iff] at hf
        simp at hf
        simp [hf, hu, hq]
      · simp [hstack u hu] at hf
  have := h s hr hquiet
  rw [hq] at this
  exact absurd this (Finset.singleton_ne_empty 3)

end SignalCrates.FutexLock
