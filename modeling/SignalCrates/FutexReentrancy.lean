import SignalCrates.FutexExclusion
import SignalCrates.LockCall

/-! Calls of `FutexLock::lock`, and the thread's own guards at every point of a call. -/
namespace SignalCrates.FutexLock
open SignalLock TransitionSystem InterruptStack ExclusiveCell FutexWord LockCall

variable {T : Type*}

def Pc.phase : Pc → Phase
  | .client => .outside
  | .rawLock _ => .starting
  | .acquire _ => .contended
  | .setWaiters _ _ => .contended
  | .wait _ _ => .contended
  | .waiting _ => .contended
  | .reload _ => .contended
  | .ret (.error .recursive) => .refused
  | .ret (.ok ()) => .granted
  | .wake => .outside
  | .abort => .outside

def Frame.phase (f : Frame T) : Phase := f.pc.phase

theorem rawLockContended_phase (t : Tid) (w : Word) :
    (rawLockContended t w).phase =
      if w &&& FUTEX_TID_MASK = t then .refused else .contended := by
  unfold rawLockContended
  split_ifs <;> rfl

theorem rawUnlock_phase (t : Tid) (w : Word) : (rawUnlock t w).phase = .outside := by
  unfold rawUnlock
  split_ifs <;> rfl

/-- A failed exchange or a reload refuses the call exactly when its thread has a guard. -/
theorem contend_phase {x : T} {ok : World T → Label Tid (Action T) → Prop} {s : World T}
    (h : Reach (system x) ok s) {t : Tid} (ht : validTid t = true) :
    (rawLockContended t s.shared.word).phase =
      if guards s t = [] then .contended else .refused := by
  rw [rawLockContended_phase]
  have := holder_eq_iff h ht
  by_cases hg : guards s t = []
  · rw [if_pos hg, if_neg fun hw => this.mp hw hg]
  · rw [if_neg hg, if_pos (this.mpr hg)]

/-- The first exchange of a call and its return wait for nothing. -/
theorem call_enabled (t : Tid) (g : Shared T) (f : Frame T)
    (hp : f.phase = .starting ∨ f.phase = .refused) :
    ∃ a r, (program T).act t a g f = some r := by
  obtain ⟨pc, gs⟩ := f
  cases pc with
  | rawLock tid =>
    refine ⟨.exchange true id, (g, ⟨rawLockContended tid g.word, gs⟩), ?_⟩
    simp [program, act, compareExchangeWeak]
  | ret res => exact ⟨.ret, _, rfl⟩
  | _ => simp [Frame.phase, Pc.phase] at hp

theorem callCode (x : T) :
    CallCode (program T) (system x).initial noHandOut Frame.guards Frame.phase where
  conserves := conserves
  noHandOut _ _ := id
  empty := by
    rintro s t rfl
    rfl
  entry := rfl
  returns f h := by
    obtain rfl := returns_cases h
    rfl
  deliver _ _ _ := rfl
  act := by
    intro s t f below b g' f' hr hs ha
    have ht := validTid_of_reach (x := x) hr (t := t) (by simp [hs])
    have hlocal := sound_of_reach (x := x) hr t
    rw [hs] at hlocal
    have hown := hlocal.1
    have hphase := contend_phase (x := x) hr ht
    have hfree : s.shared.word = 0 → guards s t = [] :=
      fun hw => (word_eq_zero_iff (x := x) hr).mp hw t
    cases act_cases ha with
    | lock => exact .inr ⟨rfl, rfl⟩
    | take hw => exact ⟨fun hm => absurd (hfree hw) hm, fun _ => .inr rfl⟩
    | contend =>
      obtain rfl := hown
      exact ⟨fun hm => ⟨hphase.trans (if_neg hm), rfl, rfl⟩,
        fun hm => .inl ⟨hphase.trans (if_pos hm), rfl⟩⟩
    | takeContended _ => exact fun _ => .inr rfl
    | loseAcquire =>
      obtain rfl := hown
      exact fun hm => .inl ⟨hphase.trans (if_pos hm), rfl⟩
    | setWaiters _ => exact fun _ => .inl ⟨rfl, rfl⟩
    | loseWaiters =>
      obtain ⟨rfl, -⟩ := hown
      exact fun hm => .inl ⟨hphase.trans (if_pos hm), rfl⟩
    | sleep _ => exact fun _ => .inl ⟨rfl, rfl⟩
    | eagain _ => exact fun _ => .inl ⟨rfl, rfl⟩
    | woken _ => exact fun _ => .inl ⟨rfl, rfl⟩
    | spuriousWake => exact fun _ => .inl ⟨rfl, rfl⟩
    | load =>
      obtain rfl := hown
      exact fun hm => .inl ⟨hphase.trans (if_pos hm), rfl⟩
    | @ret res _ =>
      rcases res with ⟨⟨⟩⟩ | ⟨⟩
      · exact ⟨rfl, rfl, rfl⟩
      · exact .inr rfl
    | access _ => exact .inl rfl
    | drop => exact .inl (rawUnlock_phase _ _)
    | wakeNone _ => exact .inl rfl
    | wakeSome _ => exact .inl rfl
  enabled := call_enabled

/-- `lock` reads `gettid` before its first exchange. -/
theorem lock_startsAt : StartsAt (program T) Frame.guards Frame.phase .lock := by
  intro t g f g' f' h
  cases act_cases h
  exact ⟨rfl, rfl, rfl⟩

end SignalCrates.FutexLock
