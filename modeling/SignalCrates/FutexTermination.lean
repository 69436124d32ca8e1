import SignalCrates.FutexProgress
import SignalCrates.Completion

/-!
# Every call of a FutexLock returns

Without new work the threads of a FutexLock cannot all wait for each other: one that
sleeps is owed a wake by a thread that can run. So whatever the scheduler chooses, all
handlers return, all threads exit, and nothing of the lock is left behind.
-/
namespace SignalCrates.FutexLock
open SignalLock TransitionSystem InterruptStack ExclusiveCell FutexWord LockCall Potential
  Completion

variable {T : Type*}

/-- Steps of the threads that are there, without new calls of `lock`, signals or threads. -/
def quiet (l : Label Tid (Action T)) : Bool := genuine l && !workload l

/-- No thread is left, the lock is free and the kernel's queue is empty. -/
def Finished (s : World T) : Prop :=
  (∀ t, s.stack t = []) ∧ s.shared.word = 0 ∧ s.shared.queue = ∅

theorem exchange_enabled (t : Tid) (g : Shared T) {pc : Pc} (gs : List (FutexLockGuard T))
    (h : (∃ tid, pc = .rawLock tid) ∨ (∃ tid, pc = .acquire tid) ∨
      ∃ tid word, pc = .setWaiters tid word) :
    ∃ r, act t (.exchange false id) g ⟨pc, gs⟩ = some r := by
  refine Option.isSome_iff_exists.mp ?_
  rcases h with ⟨tid, rfl⟩ | ⟨tid, rfl⟩ | ⟨tid, word, rfl⟩ <;> simp only [act]
  · cases compareExchangeWeak g.word 0 false <;> rfl
  · cases compareExchangeWeak g.word 0 false <;> rfl
  · cases compareExchangeWeak g.word word false <;> rfl

/-- An innermost frame that does not sleep has a step of its own to make. -/
theorem act_or_returns (t : Tid) (g : Shared T) (f : Frame T) (habort : f.pc ≠ .abort)
    (hawake : (∃ tid, f.pc = .waiting tid) → t ∉ g.queue) :
    returns f = true ∨ ∃ a r, quiet (.act t a) = true ∧ act t a g f = some r := by
  obtain ⟨pc, gs⟩ := f
  have hexchange (hpc : (∃ tid, pc = .rawLock tid) ∨ (∃ tid, pc = .acquire tid) ∨
      ∃ tid word, pc = .setWaiters tid word) :
      ∃ a r, quiet (.act t a) = true ∧ act t a g ⟨pc, gs⟩ = some r := by
    obtain ⟨r, hr⟩ := exchange_enabled t g gs hpc
    exact ⟨_, r, rfl, hr⟩
  cases pc with
  | client =>
    cases gs with
    | nil => exact .inl rfl
    | cons k gs => exact .inr ⟨.drop, _, rfl, rfl⟩
  | rawLock tid => exact .inr (hexchange (.inl ⟨tid, rfl⟩))
  | acquire tid => exact .inr (hexchange (.inr (.inl ⟨tid, rfl⟩)))
  | setWaiters tid word => exact .inr (hexchange (.inr (.inr ⟨tid, word, rfl⟩)))
  | wait tid val =>
    right
    by_cases hw : g.word = val
    · exact ⟨.wait, _, rfl, if_pos hw⟩
    · exact ⟨.wait, _, rfl, if_neg hw⟩
  | waiting tid => exact .inr ⟨.woken, _, rfl, if_neg (hawake ⟨tid, rfl⟩)⟩
  | reload tid => exact .inr ⟨.load, _, rfl, rfl⟩
  | ret res => exact .inr ⟨.ret, _, rfl, rfl⟩
  | wake =>
    right
    rcases g.queue.eq_empty_or_nonempty with hq | ⟨u, hu⟩
    · exact ⟨.wakeOne none, _, rfl, if_pos hq⟩
    · exact ⟨.wakeOne (some u), _, rfl, if_pos hu⟩
  | abort => exact absurd rfl habort

/-- Where nothing can move, every thread that is left sleeps. -/
theorem asleep_of_stuck {x : T} {s : World T} (hr : Reach (system x) noHandOut s)
    (hstuck : Stuck (system x) quiet s) {t : Tid} (ht : s.stack t ≠ []) :
    t ∈ s.shared.queue := by
  obtain ⟨f, fs, hs⟩ := List.exists_cons_of_ne_nil ht
  by_contra hq
  have habort := no_abort hr t
  rw [hs] at habort
  rcases act_or_returns t s.shared f habort.1 fun _ => hq with hf | ⟨a, r, ha, hact⟩
  · have hnone := hstuck (.finish t) rfl
    change InterruptStack.next (program T) s (.finish t) = none at hnone
    simp [InterruptStack.next, hs, program, hf] at hnone
  · have hnone := hstuck (.act t a) ha
    change InterruptStack.next (program T) s (.act t a) = none at hnone
    rw [next_act hs] at hnone
    simp [program, hact] at hnone

theorem finished_of_empty {x : T} {s : World T} (hr : Reach (system x) noHandOut s)
    (h : ∀ t, s.stack t = []) : Finished s := by
  refine ⟨h, (word_eq_zero_iff hr).mpr fun t => by rw [guards, live, h t]; rfl, ?_⟩
  refine Finset.eq_empty_of_forall_notMem fun t ht => ?_
  obtain ⟨tid, gs, fs, he⟩ := queued_of_reach hr t ht
  simp [h t] at he

theorem stuck_iff_finished {x : T} {s : World T} (hr : Reach (system x) noHandOut s) :
    Stuck (system x) quiet s ↔ Finished s := by
  constructor
  · intro hstuck
    refine finished_of_empty hr fun t => ?_
    by_contra ht
    -- a sleeper would be owed a wake by a thread that is awake
    rcases duty_of_reach hr ⟨t, asleep_of_stuck hr hstuck ht⟩ with hw | ⟨u, hu, f, hf, -⟩
    · have hne : s.shared.word ≠ 0 := by
        intro h0
        rw [h0] at hw
        exact not_flagged_zero hw
      obtain ⟨u, hu, hne⟩ := holder_awake hr hne
      exact hu (asleep_of_stuck hr hstuck hne)
    · exact hu (asleep_of_stuck hr hstuck (List.ne_nil_of_mem hf))
  · rintro ⟨h, -, -⟩ l hl
    change InterruptStack.next (program T) s l = none
    cases l with
    | spawn t => simp [quiet, workload, Label.isSpawn] at hl
    | _ t => simp [InterruptStack.next, h t]

/-- What a quiet step costs is paid out of what the frames have left. -/
theorem quiet_next {x : T} (n : ℕ) {s s' : World T} {l : Label Tid (Action T)}
    (hr : Reach (system x) noHandOut s) (hn : mass Frame.calls s ≤ n) (hl : quiet l = true)
    (h : (system x).next s l = some s') :
    mass Frame.calls s' ≤ n ∧
      4 * potential n s' + mass Frame.work s' + 1 ≤ 4 * potential n s + mass Frame.work s := by
  have hany : Reach (system x) anyStep s := hr.mono fun _ _ _ => trivial
  simp only [quiet, workload, Bool.and_eq_true, Bool.not_eq_true', Bool.or_eq_false_iff] at hl
  obtain ⟨hgen, ⟨⟨hspawn, hsignal⟩, hout⟩, hlock⟩ := hl
  obtain ⟨hcalls, hpot⟩ := potential_next n hany hgen hn h
  have hwork := work_next hany hgen h
  simp only [income, fare, hspawn, hsignal, hout, hlock, Bool.toNat_false] at hcalls hpot hwork
  exact ⟨by omega, by omega⟩

theorem potential_nonneg {x : T} (n : ℕ) {s : World T} (hr : Reach (system x) noHandOut s) :
    0 ≤ potential n s := by
  have hqueue : s.shared.queue.card ≤ mass (Frame.stale s.shared.word) s := by
    refine card_le_mass fun t ht => ?_
    obtain ⟨tid, gs, fs, he⟩ := queued_of_reach hr t ht
    simp [he, Frame.stale, Pc.stale]
  unfold potential
  omega

/-- The states that quiet steps can reach, with at most `n` calls in progress. -/
def Calls (x : T) (n : ℕ) (s : World T) : Prop :=
  Reach (system x) noHandOut s ∧ mass Frame.calls s ≤ n

theorem calls_next {x : T} {n : ℕ} (s : World T) (l : Label Tid (Action T)) (s' : World T)
    (h : Calls x n s) (hl : quiet l = true) (hs : (system x).next s l = some s') :
    Calls x n s' ∧
      4 * potential n s' + mass Frame.work s' + 1 ≤ 4 * potential n s + mass Frame.work s := by
  obtain ⟨hcalls, hle⟩ := quiet_next n h.1 h.2 hl hs
  have hok : noHandOut s l := by
    cases l with
    | handOut t => simp [quiet, workload, Label.isHandOut] at hl
    | _ => trivial
  exact ⟨⟨.step h.1 hok hs, hcalls⟩, hle⟩

theorem measure_nonneg {x : T} {n : ℕ} (s : World T) (h : Calls x n s) :
    0 ≤ 4 * potential n s + mass Frame.work s := by
  have := potential_nonneg n h.1
  omega

/-- From every state of a run without handed out guards, however the threads that are
there are scheduled, all calls return and all threads finish. -/
theorem futex_termination {x : T} {s : World T} (h : Reach (system x) noHandOut s) :
    Completes (system x) quiet Finished s :=
  completes calls_next measure_nonneg (fun _ hs => stuck_iff_finished hs.1)
    (⟨h, le_rfl⟩ : Calls x (mass Frame.calls s) s)

theorem ends_of_reach {x : T} {s : World T} (h : Reach (system x) noHandOut s) :
    Acc (StepFrom (system x) quiet) s :=
  acc_of_measure calls_next measure_nonneg (⟨h, le_rfl⟩ : Calls x (mass Frame.calls s) s)

theorem futex_termination_contention :
    ∃ s, run (system 5) (new 5) contention = some s ∧ 2 ∈ s.shared.queue ∧
      Completes (system 5) quiet Finished s := by
  have hs : run (system 5) (new 5) contention = some _ := rfl
  have hr : Reach (system 5) noHandOut _ :=
    (Reach.initial rfl).run (by simp [contention, noHandOut]) hs
  exact ⟨_, rfl, by decide, futex_termination hr⟩

end SignalCrates.FutexLock
