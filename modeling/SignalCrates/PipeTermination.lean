import SignalCrates.PipeWake
import SignalCrates.PipeReentrancy
import SignalCrates.PipeProgress
import SignalCrates.Completion

/-!
# Every call of a PipeLock returns

A thread that is blocked in `read` is owed a byte by a thread that can run, as long as
`waiters` cannot wrap. Without new work all calls return and all threads finish, and what
is left behind is a free lock, no waiter, and perhaps some bytes.
-/
namespace SignalCrates.PipeLock
open SignalLock TransitionSystem InterruptStack ExclusiveCell LockCall Potential Completion

variable {T : Type*}

/-- Steps of the threads that are there, without new calls of `lock`, signals or threads,
and so without the `EINTR` that only a signal causes. -/
def quiet (l : Label Tid (Action T)) : Bool :=
  genuine l && !workload l && !l.isAct Action.isWriteEintr

/-- No thread is left, the lock is free and no waiter is counted. -/
def Finished (s : World T) : Prop :=
  (∀ t, s.stack t = []) ∧ s.shared.holderTid = 0 ∧ s.shared.waiters = 0

/-- The call of `lock` has not returned. -/
def Pc.calls : Pc → ℕ
  | .lock _ => 1
  | .fetchAdd _ => 1
  | .fence _ => 1
  | .exchange _ => 1
  | .fetchSub _ => 1
  | .read _ => 1
  | .reading _ => 1
  | _ => 0

def Frame.calls (f : Frame T) : ℕ := f.pc.calls

/-- Runs without handed out guards, in which `waiters` never wraps. -/
def orderly (s : World T) (l : Label Tid (Action T)) : Prop := noHandOut s l ∧ noWrap s l

theorem lockContended_calls (t holder : Tid) : (lockContended t holder).calls ≤ 1 := by
  unfold lockContended
  split_ifs <;> simp [Pc.calls]

theorem retry_calls (t holder : Tid) : (retry t holder).calls = 1 := by
  unfold retry
  split_ifs <;> rfl

theorem unlock_calls (t holder : Tid) (contended : Bool) :
    (unlock t contended holder).calls = 0 := by
  unfold unlock
  split_ifs <;> rfl

theorem weighs_calls (capacity : ℕ) :
    Weighs (program T capacity) Frame.calls 0 fun _ => 0 where
  entry := rfl
  deliver _ _ f := by
    obtain ⟨pc, gs⟩ := f
    cases pc <;> simp [program, Frame.calls, Pc.step, Pc.calls]
  returns f h := by rw [returns_cases h]; rfl
  handOut f f₀ f' f₀' h := by
    obtain ⟨gs, rfl, rfl, rfl⟩ := handOut_cases h
    rfl

theorem Acts.calls {capacity : ℕ} {t : Tid} {a : Action T} {s s' : Shared T} {f f' : Frame T}
    (h : Acts capacity t s a f s' f') : f'.calls ≤ f.calls + a.isLock.toNat := by
  cases h with
  | contend => exact lockContended_calls _ _
  | lose => exact (retry_calls _ _).le
  | drop => simp [Frame.calls, unlock_calls]
  | load => simp only [Frame.calls]; split_ifs <;> exact Nat.zero_le _
  | lock => exact le_refl 1
  | _ => simp [Frame.calls, Pc.calls]

/-- Only a call of `lock` adds to the calls in progress. -/
theorem calls_next {capacity : ℕ} {s s' : World T} {l : Label Tid (Action T)}
    (h : InterruptStack.next (program T capacity) s l = some s') :
    mass Frame.calls s' ≤ mass Frame.calls s + (l.isAct Action.isLock).toNat := by
  rcases (conserves capacity).live_next h with
    ⟨-, hact⟩ | ⟨t, a, f, fs, g', f', rfl, hs, ha, rfl⟩
  · have hcalls := (weighs_calls capacity).mass_next h hact
    have hsignal := onSignal_zero s l
    rw [hsignal] at hcalls
    omega
  · have hle := (act_cases ha).calls
    have hput := mass_put_cons Frame.calls f' g' hs
    simp only [Label.isAct]
    omega

/-- A registered frame is inside a call. -/
theorem total_registered_le (s : World T) : total Frame.registered s ≤ mass Frame.calls s := by
  rw [total_eq_mass]
  refine mass_mono (fun f => ?_) s
  obtain ⟨pc, gs⟩ := f
  cases pc <;> first | exact le_refl 1 | exact Nat.zero_le _

/-- An innermost frame that is not blocked on an empty pipe has a step of its own to make. -/
theorem act_or_returns (capacity : ℕ) (t : Tid) (g : Shared T) (f : Frame T)
    (habort : f.pc ≠ .abort) (hbyte : (∃ tid, f.pc = .reading tid) → 0 < g.bytes) :
    returns f = true ∨ ∃ a r, quiet (.act t a) = true ∧ act capacity t a g f = some r := by
  obtain ⟨pc, gs⟩ := f
  have hop (o : Op) (hq : quiet (.act t (.op o id) : Label Tid (Action T)) = true)
      (hpc : (pc.step o).isSome) (hs : (g.step capacity o).isSome) :
      ∃ a r, quiet (.act t a) = true ∧ act capacity t a g ⟨pc, gs⟩ = some r := by
    obtain ⟨pc', hpc⟩ := Option.isSome_iff_exists.mp hpc
    obtain ⟨g', hs⟩ := Option.isSome_iff_exists.mp hs
    refine ⟨.op o id, ?_⟩
    simp only [act, hpc, hs, Option.bind_some, Option.map_some]
    exact ⟨_, hq, rfl⟩
  have hexchange (tid : Tid) (hwin : (pc.step (.win tid)).isSome)
      (hlose : (pc.step (.lose g.holderTid)).isSome) :
      ∃ a r, quiet (.act t a) = true ∧ act capacity t a g ⟨pc, gs⟩ = some r := by
    by_cases h0 : g.holderTid = 0
    · exact hop (.win tid) rfl hwin (by simp [Shared.step, h0])
    · have hgen : genuine (.act t (.op (.lose g.holderTid) id) : Label Tid (Action T)) = true :=
        decide_eq_true h0
      exact hop (.lose g.holderTid) (by rw [quiet, hgen]; rfl) hlose (by simp [Shared.step])
  cases pc with
  | client =>
    cases gs with
    | nil => exact .inl rfl
    | cons k gs =>
      refine .inr ⟨.drop, ({ g with holderTid := 0 }, ⟨unlock k.tid k.contended g.holderTid, gs⟩),
        rfl, ?_⟩
      simp [act, Shared.step]
  | lock tid => exact .inr (hexchange tid (by simp [Pc.step]) rfl)
  | fetchAdd tid => exact .inr (hop .fetchAdd rfl rfl rfl)
  | fence tid => exact .inr (hop .fence rfl rfl rfl)
  | exchange tid => exact .inr (hexchange tid (by simp [Pc.step]) rfl)
  | fetchSub res => exact .inr (hop .fetchSub rfl rfl rfl)
  | read tid => exact .inr (hop .enterRead rfl rfl rfl)
  | reading tid => exact .inr (hop .read rfl rfl (by simp [Shared.step, hbyte ⟨tid, rfl⟩]))
  | ret res => exact .inr ⟨.ret, _, rfl, rfl⟩
  | fenceUnlock => exact .inr (hop .fence rfl rfl rfl)
  | load => exact .inr (hop (.load g.waiters) rfl rfl (by simp [Shared.step]))
  | write => exact .inr (hop .write rfl rfl (by simp only [Shared.step]; split_ifs <;> rfl))
  | abort => exact absurd rfl habort

/-- Where nothing can move, the pipe is empty and every thread that is left reads from it. -/
theorem reading_of_stuck {x : T} {capacity : ℕ} {s : World T}
    (hr : Reach (system x capacity) orderly s) (hstuck : Stuck (system x capacity) quiet s)
    {t : Tid} {f : Frame T} {fs : List (Frame T)} (hs : s.stack t = f :: fs) :
    (∃ tid, f.pc = .reading tid) ∧ s.shared.bytes = 0 := by
  by_contra hnot
  have habort := no_abort hr t
  rw [hs] at habort
  have hbyte : (∃ tid, f.pc = .reading tid) → 0 < s.shared.bytes := by
    intro hf
    have hne : s.shared.bytes ≠ 0 := fun h0 => hnot ⟨hf, h0⟩
    omega
  rcases act_or_returns capacity t s.shared f habort.1 hbyte with
    hf | ⟨a, r, ha, hact⟩
  · have hnone := hstuck (.finish t) rfl
    change InterruptStack.next (program T capacity) s (.finish t) = none at hnone
    simp [InterruptStack.next, hs, program, hf] at hnone
  · have hnone := hstuck (.act t a) ha
    change InterruptStack.next (program T capacity) s (.act t a) = none at hnone
    rw [next_act hs] at hnone
    simp [program, hact] at hnone

theorem finished_of_empty {x : T} {capacity : ℕ} {s : World T}
    (hr : Reach (system x capacity) orderly s) (h : ∀ t, s.stack t = []) : Finished s := by
  refine ⟨h, (holderTid_eq_zero_iff hr).mpr fun t => by rw [guards, live, h t]; rfl, ?_⟩
  have htotal : total Frame.registered s = 0 := by
    unfold total
    simp [live, h]
  rw [waiters_eq_total hr, htotal]
  rfl

theorem stuck_iff_finished {x : T} {capacity : ℕ} (hcap : 1 ≤ capacity) {s : World T}
    (hr : Reach (system x capacity) orderly s) :
    Stuck (system x capacity) quiet s ↔ Finished s := by
  constructor
  · intro hstuck
    refine finished_of_empty hr fun t => ?_
    by_contra ht
    obtain ⟨f, fs, hs⟩ := List.exists_cons_of_ne_nil ht
    have hreading {u : Tid} {f : Frame T} {fs : List (Frame T)} (hs : s.stack u = f :: fs) :
        f.Blocks ∧ f.phase = .contended := by
      obtain ⟨⟨tid, hf⟩, -⟩ := reading_of_stuck hr hstuck hs
      simp [Frame.Blocks, Frame.phase, hf, Pc.phase]
    have hduty := duty_of_reach hcap (hr.mono fun _ _ h => h.2)
    rcases hduty ⟨t, f, by simp [hs], (hreading hs).1⟩ with hb | ⟨u, hu⟩ | ⟨u, hu⟩
    · have := (reading_of_stuck hr hstuck hs).2
      omega
    · -- the owner of a guard does not block
      cases hsu : s.stack u with
      | nil => exact hu (by rw [guards, live, hsu]; rfl)
      | cons d ds =>
        have hplaced := placed_of_reach (callCode x capacity) (hr.mono fun _ _ h => h.1) u
        rw [hsu] at hplaced
        refine hu ?_
        rw [guards, live, hsu]
        exact hplaced.1.1 (hreading hsu).2
    · cases hsu : s.stack u with
      | nil =>
        rw [hsu] at hu
        exact hu
      | cons d ds => exact hu.not_readsNext ⟨d, ds, hsu, (hreading hsu).1⟩
  · rintro ⟨h, -, -⟩ l hl
    change InterruptStack.next (program T capacity) s l = none
    cases l with
    | spawn t => simp [quiet, workload, Label.isSpawn] at hl
    | _ t => simp [InterruptStack.next, h t]

theorem quiet_next {capacity : ℕ} {s s' : World T} {l : Label Tid (Action T)}
    (hl : quiet l = true) (h : InterruptStack.next (program T capacity) s l = some s') :
    mass Frame.calls s' ≤ mass Frame.calls s ∧
      mass Frame.work s' + 3 * s'.shared.bytes + 1 ≤ mass Frame.work s + 3 * s.shared.bytes := by
  simp only [quiet, workload, Bool.and_eq_true, Bool.not_eq_true', Bool.or_eq_false_iff] at hl
  obtain ⟨⟨hgen, ⟨⟨hspawn, hsignal⟩, hout⟩, hlock⟩, heintr⟩ := hl
  have hcalls := calls_next h
  have hwork := work_next hgen h
  simp only [fare, hspawn, hsignal, hout, hlock, heintr, Bool.toNat_false] at hcalls hwork
  exact ⟨by omega, by omega⟩

/-- A run with few calls of `lock` does not wrap `waiters`. -/
theorem reach_orderly {x : T} {capacity : ℕ} {ls : List (Label Tid (Action T))} {s s' : World T}
    (h : Reach (system x capacity) orderly s)
    (hfew : mass Frame.calls s + locks ls < 2 ^ 32) (hout : ls.all (!·.isHandOut) = true)
    (hr : run (system x capacity) s ls = some s') :
    Reach (system x capacity) orderly s' ∧ mass Frame.calls s' < 2 ^ 32 := by
  induction ls generalizing s with
  | nil =>
    obtain rfl : s = s' := by simpa [run] using hr
    exact ⟨h, by omega⟩
  | cons l ls ih =>
    obtain ⟨s₁, hs, hr⟩ := Option.bind_eq_some_iff.mp hr
    have hle : mass Frame.calls s₁ ≤ _ := calls_next hs
    rw [locks, countP_cons_toNat] at hfew
    rw [List.all_cons, Bool.and_eq_true] at hout
    have hok : noHandOut s l := by
      cases l with
      | handOut t => simp [Label.isHandOut] at hout
      | _ => trivial
    have hwrap : noWrap s l := (total_registered_le s).trans_lt (by omega)
    exact ih (.step h ⟨hok, hwrap⟩ hs) (by unfold locks; omega) hout.2 hr

/-- The states that quiet steps can reach while no call can wrap `waiters`. -/
def Few (x : T) (capacity : ℕ) (s : World T) : Prop :=
  Reach (system x capacity) orderly s ∧ mass Frame.calls s < 2 ^ 32

theorem few_next {x : T} {capacity : ℕ} (s : World T) (l : Label Tid (Action T)) (s' : World T)
    (h : Few x capacity s) (hl : quiet l = true) (hs : (system x capacity).next s l = some s') :
    Few x capacity s' ∧ ((mass Frame.work s' + 3 * s'.shared.bytes : ℕ) : ℤ) + 1 ≤
      (mass Frame.work s + 3 * s.shared.bytes : ℕ) := by
  obtain ⟨hr, hn⟩ := h
  obtain ⟨hcalls, hle⟩ := quiet_next hl hs
  have hout : noHandOut s l := by
    cases l with
    | handOut t => simp [quiet, workload, Label.isHandOut] at hl
    | _ => trivial
  have hwrap : noWrap s l := (total_registered_le s).trans_lt hn
  refine ⟨⟨.step hr ⟨hout, hwrap⟩ hs, by omega⟩, ?_⟩
  exact_mod_cast hle

/-- With room for one byte and fewer than `2 ^ 32` calls in progress, however the threads
that are there are scheduled, all calls return and all threads finish. -/
theorem pipe_termination {x : T} {capacity : ℕ} (hcap : 1 ≤ capacity) {s : World T}
    (h : Reach (system x capacity) orderly s) (hfew : mass Frame.calls s < 2 ^ 32) :
    Completes (system x capacity) quiet Finished s :=
  completes few_next (fun _ _ => Int.natCast_nonneg _)
    (fun _ hs => stuck_iff_finished hcap hs.1) ⟨h, hfew⟩

theorem ends_of_reach {x : T} {capacity : ℕ} {s : World T}
    (h : Reach (system x capacity) orderly s) (hfew : mass Frame.calls s < 2 ^ 32) :
    Acc (StepFrom (system x capacity) quiet) s :=
  acc_of_measure few_next (fun _ _ => Int.natCast_nonneg _) ⟨h, hfew⟩

theorem pipe_termination_waiting :
    ∃ s, run (system () 1) (new () 1) waiting = some s ∧ (∃ f ∈ s.stack 2, f.Blocks) ∧
      Completes (system () 1) quiet Finished s := by
  obtain ⟨s, hs, hblocks⟩ : ∃ s, run (system () 1) (new () 1) waiting = some s ∧
      ∃ f ∈ s.stack 2, f.Blocks := ⟨_, rfl, _, List.mem_singleton_self _, trivial⟩
  have hnew : Reach (system () 1) orderly (new () 1) := .initial ⟨1, rfl⟩
  have hzero : mass Frame.calls (new () 1) = 0 := mass_empty fun _ => rfl
  have hfew : mass Frame.calls (new () 1) + locks waiting < 2 ^ 32 := by
    rw [hzero]
    decide
  obtain ⟨hr, hcalls⟩ := reach_orderly hnew hfew (by decide) hs
  exact ⟨s, hs, hblocks, pipe_termination le_rfl hr hcalls⟩

end SignalCrates.PipeLock
