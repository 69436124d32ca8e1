import SignalCrates.PipeProgress
import SignalCrates.PipeReentrancy
import SignalCrates.PipeWake

/-!
# `waiters` over whole calls

A contended call adds itself once and takes itself off once, whichever way it returns.
When no call is in progress the counter is 0, and a call that wins its first exchange
then unlocks without a write.
-/
namespace SignalCrates.PipeLock
open SignalLock TransitionSystem InterruptStack ExclusiveCell LockCall Potential

variable {T : Type*}

/-- The point that a frame reaches by the operations listed. -/
def Pc.walk : Pc → List Op → Option Pc
  | pc, [] => some pc
  | pc, o :: os => (pc.step o).bind fun pc' => pc'.walk os

def Op.isFetchAdd : Op → Bool
  | .fetchAdd => true
  | _ => false

def Op.isFetchSub : Op → Bool
  | .fetchSub => true
  | _ => false

/-- The frame has still to execute its `fetch_add`. -/
def Pc.adds : Pc → ℕ
  | .fetchAdd _ => 1
  | _ => 0

theorem lockContended_adds (tid holder : Tid) :
    (lockContended tid holder).adds = if holder = tid then 0 else 1 := by
  unfold lockContended
  split_ifs <;> rfl

theorem retry_adds (tid holder : Tid) : (retry tid holder).adds = 0 := by
  unfold retry
  split_ifs <;> rfl

/-- The call has gone past its first exchange. -/
def Pc.Inside (pc : Pc) : Prop := ∀ tid, pc ≠ .lock tid

theorem lockContended_inside (tid holder : Tid) : (lockContended tid holder).Inside := by
  unfold lockContended
  split_ifs <;> rintro u ⟨⟩

theorem retry_inside (tid holder : Tid) : (retry tid holder).Inside := by
  unfold retry
  split_ifs <;> rintro u ⟨⟩

/-- An operation of the loop moves the two updates of `waiters` by at most one. -/
theorem step_updates {pc pc' : Pc} {o : Op} (h : pc.step o = some pc') (hpc : pc.Inside) :
    pc'.Inside ∧ pc'.adds + o.isFetchAdd.toNat = pc.adds ∧
      pc'.registered.length + o.isFetchSub.toNat =
        pc.registered.length + o.isFetchAdd.toNat := by
  cases pc with
  | lock tid => exact absurd rfl (hpc tid)
  | exchange tid =>
    cases o <;> simp only [Pc.step, reduceCtorEq, Option.ite_none_right_eq_some,
      Option.some.injEq] at h
    · obtain ⟨-, rfl⟩ := h
      exact ⟨by rintro u ⟨⟩, rfl, rfl⟩
    · subst h
      exact ⟨retry_inside _ _, by rw [retry_adds]; rfl, by rw [retry_registered]; rfl⟩
  | load =>
    cases o <;> simp only [Pc.step, reduceCtorEq, Option.some.injEq] at h
    subst h
    split_ifs <;> exact ⟨by rintro u ⟨⟩, rfl, rfl⟩
  | _ =>
    cases o <;> simp only [Pc.step, reduceCtorEq, Option.some.injEq] at h <;> subst h <;>
      exact ⟨by rintro u ⟨⟩, rfl, rfl⟩

theorem walk_updates {pc pc' : Pc} {os : List Op} (h : pc.walk os = some pc')
    (hpc : pc.Inside) :
    pc'.adds + os.countP Op.isFetchAdd = pc.adds ∧
      pc'.registered.length + os.countP Op.isFetchSub =
        pc.registered.length + os.countP Op.isFetchAdd := by
  induction os generalizing pc with
  | nil =>
    obtain rfl : pc = pc' := by simpa [Pc.walk] using h
    exact ⟨rfl, rfl⟩
  | cons o os ih =>
    obtain ⟨pc₁, hs, hw⟩ := Option.bind_eq_some_iff.mp h
    obtain ⟨hin, hadds, hregistered⟩ := step_updates hs hpc
    obtain ⟨iha, ihr⟩ := ih hw hin
    rw [countP_cons_toNat, countP_cons_toNat]
    omega

/-- Whichever way `lock_contended` returns, it has decremented as often as it has
incremented: once, or not at all when it returns before the increment. -/
theorem contended_updates {tid holder : Tid} {os : List Op} {res : Result}
    (h : (lockContended tid holder).walk os = some (.ret res)) :
    os.countP Op.isFetchAdd = (if holder = tid then 0 else 1) ∧
      os.countP Op.isFetchSub = if holder = tid then 0 else 1 := by
  obtain ⟨hadds, hregistered⟩ := walk_updates h (lockContended_inside _ _)
  rw [lockContended_adds] at hadds
  rw [lockContended_registered] at hregistered
  simp only [Pc.adds, Pc.registered, List.length_nil] at hadds hregistered
  omega

/-- The frame is in a call of `lock` that may still change `waiters`. -/
def Pc.unsettled : Pc → ℕ
  | .lock _ => 1
  | .fetchAdd _ => 1
  | .fence _ => 1
  | .exchange _ => 1
  | .read _ => 1
  | .reading _ => 1
  | .fetchSub _ => 1
  | _ => 0

def Frame.unsettled (f : Frame T) : ℕ := f.pc.unsettled

/-- The frame registers no more, and its guards make no write necessary. -/
def Frame.Settled (f : Frame T) : Prop :=
  f.pc.unsettled = 0 ∧ ∀ g ∈ f.guards, g.contended = false

def Settled (s : World T) : Prop := ∀ t, Layered (fun f _ => f.Settled) (s.stack t)

theorem registered_of_unsettled {pc : Pc} (h : pc.unsettled = 0) : pc.registered = [] := by
  cases pc <;> first | rfl | exact absurd h Nat.one_ne_zero

theorem unsettled_of_outside {pc : Pc} (h : pc.phase = .outside) : pc.unsettled = 0 := by
  cases pc <;> first | rfl | simp [Pc.phase] at h
  rename_i res
  rcases res with ⟨⟨⟩⟩ | ⟨⟩ <;> simp at h

theorem lockContended_unsettled (t holder : Tid) : (lockContended t holder).unsettled ≤ 1 := by
  unfold lockContended
  split_ifs <;> simp [Pc.unsettled]

theorem retry_unsettled (t holder : Tid) : (retry t holder).unsettled = 1 := by
  unfold retry
  split_ifs <;> rfl

theorem unlock_unsettled (t holder : Tid) (contended : Bool) :
    (unlock t contended holder).unsettled = 0 := by
  unfold unlock
  split_ifs <;> rfl

theorem weighs_unsettled (capacity : ℕ) :
    Weighs (program T capacity) Frame.unsettled 0 fun _ => 0 where
  entry := rfl
  deliver _ _ f := by
    obtain ⟨pc, gs⟩ := f
    cases pc <;> exact le_refl _
  returns f h := by rw [returns_cases h]; rfl
  handOut f f₀ f' f₀' h := by
    obtain ⟨gs, rfl, rfl, rfl⟩ := handOut_cases h
    rfl

theorem Acts.unsettled {capacity : ℕ} {t : Tid} {a : Action T} {s s' : Shared T}
    {f f' : Frame T} (h : Acts capacity t s a f s' f') (ha : a.isLock = false) :
    f'.unsettled ≤ f.unsettled := by
  cases h with
  | lock => simp [Action.isLock] at ha
  | contend => exact lockContended_unsettled _ _
  | lose => exact (retry_unsettled _ _).le
  | load => split_ifs <;> exact le_refl 0
  | drop => exact (unlock_unsettled _ _ _).le
  | win _ => exact Nat.zero_le 1
  | fetchSub => exact Nat.zero_le 1
  | winContended _ => exact le_refl 1
  | fetchAdd => exact le_refl 1
  | fence => exact le_refl 1
  | enterRead => exact le_refl 1
  | read _ => exact le_refl 1
  | _ => exact le_refl 0

/-- While no call of `lock` starts, the frames inside calls do not become more. -/
theorem unsettled_next {capacity : ℕ} {s s' : World T} {l : Label Tid (Action T)}
    (hl : l.isAct Action.isLock = false)
    (h : InterruptStack.next (program T capacity) s l = some s') :
    mass Frame.unsettled s' ≤ mass Frame.unsettled s := by
  rcases (conserves capacity).live_next h with
    ⟨-, hact⟩ | ⟨t, a, f, fs, g', f', rfl, hs, ha, rfl⟩
  · have hw := (weighs_unsettled capacity).mass_next h hact
    rw [onSignal_zero] at hw
    omega
  · have hle := (act_cases ha).unsettled hl
    have hput := mass_put_cons Frame.unsettled f' g' hs
    omega

theorem unsettled_run {x : T} {capacity : ℕ} {ls : List (Label Tid (Action T))} {s s' : World T}
    (hls : ∀ l ∈ ls, l.isAct Action.isLock = false)
    (hr : run (system x capacity) s ls = some s') :
    mass Frame.unsettled s' ≤ mass Frame.unsettled s := by
  induction ls generalizing s with
  | nil =>
    obtain rfl : s = s' := by simpa [run] using hr
    exact le_refl _
  | cons l ls ih =>
    obtain ⟨s₁, hs, hr⟩ := Option.bind_eq_some_iff.mp hr
    have hrest := ih (fun l hl => hls l (List.mem_cons_of_mem _ hl)) hr
    exact hrest.trans (unsettled_next (hls l List.mem_cons_self) hs)

/-- With no frame inside a call the counter is 0. -/
theorem waiters_eq_zero {x : T} {capacity : ℕ} {ok : World T → Label Tid (Action T) → Prop}
    {s : World T} (h : Reach (system x capacity) ok s)
    (hs : ∀ t, ∀ f ∈ s.stack t, f.pc.unsettled = 0) : s.shared.waiters = 0 := by
  have htotal : total Frame.registered s = 0 := by
    unfold total live
    refine finsum_eq_zero_of_forall_eq_zero fun t => ?_
    have hnil : (s.stack t).flatMap Frame.registered = [] :=
      List.flatMap_eq_nil_iff.mpr fun f hf => registered_of_unsettled (hs t f hf)
    rw [hnil, List.length_nil]
  rw [waiters_eq_total h, htotal]
  rfl

/-- An action of a settled frame, while the counter is 0 and no call starts, leaves its
frame settled and begins no write. -/
theorem Acts.settled {capacity : ℕ} {t : Tid} {a : Action T} {s s' : Shared T} {f f' : Frame T}
    (h : Acts capacity t s a f s' f') (ha : a.isLock = false) (hw : s.waiters = 0)
    (hf : f.Settled) : f'.Settled ∧ (f'.pc = .write → f.pc = .write) := by
  obtain ⟨hpc, hg⟩ := hf
  cases h with
  | lock => simp [Action.isLock] at ha
  | fenceUnlock => exact ⟨⟨rfl, hg⟩, by rintro ⟨⟩⟩
  | load =>
    have hlt : ¬ (0 : BitVec 32) < 0 := by decide
    rw [hw, if_neg hlt]
    exact ⟨⟨rfl, hg⟩, by rintro ⟨⟩⟩
  | write _ => exact ⟨⟨rfl, hg⟩, fun _ => rfl⟩
  | writeFull _ => exact ⟨⟨rfl, hg⟩, fun _ => rfl⟩
  | writeEintr => exact ⟨⟨rfl, hg⟩, fun _ => rfl⟩
  | ret => exact ⟨⟨rfl, hg⟩, by rintro ⟨⟩⟩
  | @access b g gs c k _ =>
    refine ⟨⟨rfl, ?_⟩, by rintro ⟨⟩⟩
    simpa using hg
  | @drop g gs =>
    have hnot : g.contended = false := hg g List.mem_cons_self
    refine ⟨⟨unlock_unsettled _ _ _, fun g' hg' => hg g' (List.mem_cons_of_mem _ hg')⟩, ?_⟩
    simp only [unlock, hnot, Bool.false_eq_true, if_false]
    split_ifs <;> rintro ⟨⟩
  | _ => simp [Pc.unsettled] at hpc

theorem Settled.waiters {x : T} {capacity : ℕ} {s : World T} (h : Settled s)
    (hr : Reach (system x capacity) anyStep s) : s.shared.waiters = 0 :=
  waiters_eq_zero hr fun t f hf => ((h t).mem f hf).1

theorem settled_next {x : T} {capacity : ℕ} {s s' : World T} {l : Label Tid (Action T)}
    (hr : Reach (system x capacity) anyStep s) (hI : Settled s)
    (hl : l.isAct Action.isLock = false)
    (h : InterruptStack.next (program T capacity) s l = some s') : Settled s' := by
  refine layered_next h hI (fun _ _ => ⟨rfl, by simp [program]⟩) ?_ ?_ ?_
  · intro t f fs hf
    refine ⟨?_, hf.2⟩
    change ((f.pc.step .readEintr).getD f.pc).unsettled = 0
    rcases interrupted_cases f.pc with ⟨tid, he, -⟩ | he
    · simp [he, Frame.Settled, Pc.unsettled] at hf
    · rw [he]
      exact hf.1
  · rintro t a f fs g' f' rfl hs ha hf
    exact ((act_cases ha).settled hl (hI.waiters hr) hf).1
  · rintro t f f₀ fs f' f₀' - hh hf hf₀
    obtain ⟨gs, rfl, rfl, rfl⟩ := handOut_cases hh
    refine ⟨⟨rfl, by simp⟩, hf₀.1, fun g hg => ?_⟩
    exact (List.mem_append.mp hg).elim (hf.2 g) (hf₀.2 g)

theorem settled_run {x : T} {capacity : ℕ} {ls : List (Label Tid (Action T))} {s s' : World T}
    (hs : Reach (system x capacity) anyStep s) (hI : Settled s)
    (hls : ∀ l ∈ ls, l.isAct Action.isLock = false)
    (hr : run (system x capacity) s ls = some s') :
    Reach (system x capacity) anyStep s' ∧ Settled s' := by
  induction ls generalizing s with
  | nil =>
    obtain rfl : s = s' := by simpa [run] using hr
    exact ⟨hs, hI⟩
  | cons l ls ih =>
    obtain ⟨s₁, hn, hr⟩ := Option.bind_eq_some_iff.mp hr
    have hs₁ : Reach (system x capacity) anyStep s₁ := .step hs trivial hn
    have hI₁ := settled_next hs hI (hls l List.mem_cons_self) hn
    exact ih hs₁ hI₁ (fun l hl => hls l (List.mem_cons_of_mem _ hl)) hr

/-- The call that wins its first exchange, when no other is in progress, leaves all frames
settled: it has not registered, and its guard is the only one. -/
theorem settled_win {x : T} {capacity : ℕ} {s s' : World T} {t tid : Tid} {u : T → T}
    {gs : List (PipeLockGuard T)} {fs : List (Frame T)}
    (hr : Reach (system x capacity) anyStep s) (hcalls : mass Frame.unsettled s ≤ 1)
    (hs : s.stack t = ⟨.lock tid, gs⟩ :: fs)
    (h : InterruptStack.next (program T capacity) s (.act t (.op (.win tid) u)) = some s') :
    Settled s' := by
  rw [next_act hs] at h
  obtain ⟨⟨g', f'⟩, ha, rfl⟩ := Option.map_eq_some_iff.mp h
  have hacts : Acts capacity t s.shared (.op (.win tid) u) ⟨.lock tid, gs⟩ g' f' := act_cases ha
  have hput := mass_put_cons Frame.unsettled f' g' hs
  have hlock : Frame.unsettled (⟨.lock tid, gs⟩ : Frame T) = 1 := rfl
  cases hacts with
  | win hfree =>
    have hret (g : PipeLockGuard T) :
        Frame.unsettled (⟨.ret (.ok ()), g :: gs⟩ : Frame T) = 0 := rfl
    rw [hlock, hret] at hput
    have hzero := mass_eq_zero_iff.mp (Nat.le_zero.mp (Nat.le_of_add_le_add_right
      (hput.le.trans hcalls)))
    have hnone : ∀ v, ∀ f ∈ s.stack v, f.guards = [] := fun v =>
      List.flatMap_eq_nil_iff.mp ((holderTid_eq_zero_iff hr).mp hfree v)
    intro v
    refine layered_of_forall fun f hf => ⟨hzero v f hf, ?_⟩
    by_cases hv : v = t
    · subst hv
      rw [State.put_stack_self] at hf
      rcases List.mem_cons.mp hf with rfl | hf
      · have hgs : gs = [] := hnone v ⟨.lock tid, gs⟩ (by rw [hs]; exact List.mem_cons_self)
        simp [hgs]
      · rw [hnone v f (by rw [hs]; exact List.mem_cons_of_mem _ hf)]
        simp
    · rw [State.put_stack_ne _ _ _ hv] at hf
      rw [hnone v f hf]
      simp

/-- No frame begins a write in a run from `s` in which no call starts. -/
def NoWriteBegins (x : T) (capacity : ℕ) (s : World T) : Prop :=
  ∀ ls s₁ t a f fs s₂ f' fs', (∀ l ∈ ls, l.isAct Action.isLock = false) →
    run (system x capacity) s ls = some s₁ → a.isLock = false → s₁.stack t = f :: fs →
    (system x capacity).next s₁ (.act t a) = some s₂ → s₂.stack t = f' :: fs' →
    f'.pc = .write → f.pc = .write

theorem noWriteBegins {x : T} {capacity : ℕ} {s : World T}
    (hs : Reach (system x capacity) anyStep s) (hI : Settled s) :
    NoWriteBegins x capacity s := by
  intro ls s₁ t a f fs s₂ f' fs' hls hr ha hf hn hf'
  obtain ⟨hs₁, hI₁⟩ := settled_run hs hI hls hr
  have ht := hI₁ t
  rw [hf] at ht
  change InterruptStack.next (program T capacity) s₁ (.act t a) = some s₂ at hn
  rw [next_act hf] at hn
  obtain ⟨⟨g', f''⟩, hact, rfl⟩ := Option.map_eq_some_iff.mp hn
  rw [State.put_stack_self] at hf'
  obtain ⟨rfl, rfl⟩ := List.cons.inj hf'
  exact ((act_cases hact).settled ha (hI₁.waiters hs₁) ht.1).2

/-- A frame that is about to take itself off is still counted. -/
theorem fetchSub_no_wrap {x : T} {capacity : ℕ} {s : World T}
    (h : Reach (system x capacity) anyStep s) (hfew : total Frame.registered s < 2 ^ 32)
    {t : Tid} {f : Frame T} {res : Result} (hf : f ∈ s.stack t) (hpc : f.pc = .fetchSub res) :
    (s.shared.waiters - 1).toNat + 1 = s.shared.waiters.toNat := by
  have hr : f.registered = [()] := by simp [Frame.registered, hpc, Pc.registered]
  have hne := waiters_ne_zero h hfew hf hr
  bv_omega

theorem mass_unsettled_lock {x : T} {capacity : ℕ} {s s₁ : World T} {t : Tid}
    {ls : List (Label Tid (Action T))} (hs : ∀ t, ∀ f ∈ s.stack t, f.phase = .outside)
    (hls : ∀ l ∈ ls, l.isAct Action.isLock = false)
    (hr : run (system x capacity) s (.act t .lock :: ls) = some s₁) :
    mass Frame.unsettled s₁ ≤ 1 := by
  have hzero : mass Frame.unsettled s = 0 :=
    mass_eq_zero_iff.mpr fun t f hf => unsettled_of_outside (hs t f hf)
  obtain ⟨s₀, hn, hr⟩ := Option.bind_eq_some_iff.mp hr
  have hrest := unsettled_run hls hr
  change InterruptStack.next (program T capacity) s (.act t .lock) = some s₀ at hn
  rcases (conserves capacity).live_next hn with
    ⟨-, hact⟩ | ⟨u, a, f, fs, g', f', hl, hu, ha, rfl⟩
  · exact absurd rfl (hact t .lock)
  · obtain ⟨rfl, rfl⟩ : t = u ∧ .lock = a := by simpa using hl
    have hput := mass_put_cons Frame.unsettled f' g' hu
    have hone : f'.unsettled ≤ 1 := by
      have hacts : Acts capacity t s.shared .lock f g' f' := act_cases ha
      cases hacts
      exact le_refl 1
    omega

/-- The counter over all states, over every way through `lock_contended`, and around a
call that is alone. -/
theorem waiters_exact {x : T} {capacity : ℕ} {s : World T}
    (h : Reach (system x capacity) anyStep s) :
    s.shared.waiters = BitVec.ofNat 32 (total Frame.registered s) ∧
    (total Frame.registered s < 2 ^ 32 →
      s.shared.waiters.toNat = total Frame.registered s ∧
      ∀ t f res, f ∈ s.stack t → f.pc = .fetchSub res →
        (s.shared.waiters - 1).toNat + 1 = s.shared.waiters.toNat) ∧
    (∀ tid holder os res, (lockContended tid holder).walk os = some (.ret res) →
      os.countP Op.isFetchAdd = (if holder = tid then 0 else 1) ∧
      os.countP Op.isFetchSub = if holder = tid then 0 else 1) ∧
    ((∀ t, ∀ f ∈ s.stack t, f.phase = .outside) → s.shared.waiters = 0 ∧
      ∀ t u tid gs fs ls s₁ s₂, (∀ l ∈ ls, l.isAct Action.isLock = false) →
        run (system x capacity) s (.act t .lock :: ls) = some s₁ →
        s₁.stack t = ⟨.lock tid, gs⟩ :: fs →
        (system x capacity).next s₁ (.act t (.op (.win tid) u)) = some s₂ →
        NoWriteBegins x capacity s₂) := by
  refine ⟨waiters_eq_total h, fun hfew => ⟨?_, fun t f res => fetchSub_no_wrap h hfew⟩,
    fun tid holder os res => contended_updates, fun hs => ⟨?_, ?_⟩⟩
  · rw [waiters_eq_total h, BitVec.toNat_ofNat, Nat.mod_eq_of_lt hfew]
  · exact waiters_eq_zero h fun t f hf => unsettled_of_outside (hs t f hf)
  · intro t u tid gs fs ls s₁ s₂ hls hr ht hn
    have hcalls := mass_unsettled_lock hs hls hr
    have hs₁ : Reach (system x capacity) anyStep s₁ := h.run (fun _ _ _ => trivial) hr
    exact noWriteBegins (.step hs₁ trivial hn) (settled_win hs₁ hcalls ht hn)

/-- A call that waits for a byte and then gets the lock. -/
def waitsOnce : List Op :=
  [.fetchAdd, .fence, .lose 1, .enterRead, .read, .win 2, .fetchSub]

/-- Thread 1 holds the lock while thread 2 has announced itself; one way through
`lock_contended`; and thread 1 alone with the lock. -/
theorem waiters_exact_contention :
    (∃ s, run (system 5 1) (new 5 1) contention = some s ∧ s.shared.waiters = 1 ∧
      s.shared.waiters = BitVec.ofNat 32 (total Frame.registered s) ∧
      s.shared.waiters.toNat = total Frame.registered s) ∧
    ((lockContended 2 1).walk waitsOnce = some (.ret (.ok ())) ∧
      waitsOnce.countP Op.isFetchAdd = 1 ∧ waitsOnce.countP Op.isFetchSub = 1) ∧
    ∃ s s₁ s₂, run (system 5 1) (new 5 1) [.spawn 1] = some s ∧ s.shared.waiters = 0 ∧
      run (system 5 1) s [.act 1 .lock] = some s₁ ∧
      (system 5 1).next s₁ (.act 1 (.op (.win 1) id)) = some s₂ ∧ NoWriteBegins 5 1 s₂ := by
  have hnew : Reach (system 5 1) anyStep (new 5 1) := .initial ⟨1, rfl⟩
  refine ⟨?_, ?_, ?_⟩
  · obtain ⟨s, hs, hone, hlive₁, hlive₂⟩ : ∃ s, run (system 5 1) (new 5 1) contention = some s ∧
        s.shared.waiters = 1 ∧ live Frame.registered s 1 = [] ∧
        (live Frame.registered s 2).length = 1 := ⟨_, rfl, rfl, rfl, rfl⟩
    have htotal : total Frame.registered s = 1 := by
      unfold total
      rw [finsum_eq_single _ 2, hlive₂]
      intro t ht
      by_cases h₁ : t = 1
      · rw [h₁, hlive₁, List.length_nil]
      · have hother : t ∉ contention.map Label.thread := by
          simp [contention, Label.thread]
          exact ⟨h₁, ht⟩
        rw [live, run_stack_of_not_mem hother hs]
        rfl
    obtain ⟨hmod, hexact, -⟩ := waiters_exact (hnew.run (fun _ _ _ => trivial) hs)
    exact ⟨s, hs, hone, hmod, (hexact (by rw [htotal]; decide)).1⟩
  · have hwalk : (lockContended 2 1).walk waitsOnce = some (.ret (.ok ())) := rfl
    exact ⟨hwalk, (waiters_exact hnew).2.2.1 2 1 _ _ hwalk⟩
  · obtain ⟨s, s₁, s₂, hs, hstack, hs₁, hlock, hs₂⟩ : ∃ s s₁ s₂,
        run (system 5 1) (new 5 1) [.spawn 1] = some s ∧ s.stack 1 = [⟨.client, []⟩] ∧
        run (system 5 1) s [.act 1 .lock] = some s₁ ∧ s₁.stack 1 = [⟨.lock 1, []⟩] ∧
        (system 5 1).next s₁ (.act 1 (.op (.win 1) id)) = some s₂ :=
      ⟨_, _, _, rfl, rfl, rfl, rfl, rfl⟩
    have hphase : ∀ t, ∀ f ∈ s.stack t, f.phase = .outside := by
      intro t f hf
      by_cases ht : t = 1
      · rw [ht, hstack, List.mem_singleton] at hf
        rw [hf]
        rfl
      · rw [run_stack_of_not_mem (by simpa [Label.thread] using ht) hs] at hf
        exact absurd hf List.not_mem_nil
    obtain ⟨hzero, halone⟩ := (waiters_exact (hnew.run (fun _ _ _ => trivial) hs)).2.2.2 hphase
    exact ⟨s, s₁, s₂, hs, hzero, hs₁, hs₂, halone 1 id 1 [] [] [] s₁ s₂ (by simp) hs₁ hlock hs₂⟩

/-- With `2 ^ 32` frames registered the counter is 0. -/
theorem waiters_not_exact :
    ¬ ∀ s : World Unit, Reach (system () 1) anyStep s →
      s.shared.waiters.toNat = total Frame.registered s := by
  intro h
  obtain ⟨n, hn⟩ : ∃ n, n + 1 = 2 ^ 32 := ⟨2 ^ 32 - 1, rfl⟩
  have hwaiters := h _ (reach_crowd n)
  have hle := length_le_total Frame.registered
    (crowd (n + 1) (List.replicate (n + 1) ⟨.exchange 2, []⟩)) 2
  have hlen : (live Frame.registered
      (crowd (n + 1) (List.replicate (n + 1) ⟨.exchange 2, []⟩)) 2).length = n + 1 := by
    simp [live, crowd, Frame.registered, Pc.registered]
  have hzero : (BitVec.ofNat 32 (n + 1)).toNat = 0 := by
    rw [BitVec.toNat_ofNat, hn, Nat.mod_self]
  have hw : (crowd (n + 1) (List.replicate (n + 1) ⟨.exchange 2, []⟩)).shared.waiters =
      BitVec.ofNat 32 (n + 1) := rfl
  rw [hw, hzero] at hwaiters
  omega

end SignalCrates.PipeLock
