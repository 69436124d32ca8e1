import SignalCrates.PipeExclusion
import SignalCrates.LockCall

/-! Calls of `PipeLock::lock`, and the thread's own guards at every point of a call. -/
namespace SignalCrates.PipeLock
open SignalLock TransitionSystem InterruptStack ExclusiveCell LockCall

variable {T : Type*}

/-- Giving up is the late refusal of the loop, which has changed `waiters`. -/
def Pc.phase : Pc → Phase
  | .client => .outside
  | .lock _ => .starting
  | .fetchAdd _ => .contended
  | .fence _ => .contended
  | .exchange _ => .contended
  | .read _ => .contended
  | .reading _ => .contended
  | .fetchSub (.error .recursive) => .givingUp
  | .fetchSub (.ok ()) => .granted
  | .ret (.error .recursive) => .refused
  | .ret (.ok ()) => .granted
  | .fenceUnlock => .outside
  | .load => .outside
  | .write => .outside
  | .abort => .outside

def Frame.phase (f : Frame T) : Phase := f.pc.phase

theorem lockContended_phase (t holder : Tid) :
    (lockContended t holder).phase = if holder = t then .refused else .contended := by
  unfold lockContended
  split_ifs <;> rfl

theorem retry_phase {t holder : Tid} (h : holder ≠ t) : (retry t holder).phase = .contended := by
  unfold retry
  rw [if_neg h]
  split_ifs <;> rfl

theorem unlock_phase (t holder : Tid) (contended : Bool) :
    (unlock t contended holder).phase = .outside := by
  unfold unlock
  split_ifs <;> rfl

theorem interrupted_phase (pc : Pc) : ((pc.step .readEintr).getD pc).phase = pc.phase := by
  rcases interrupted_cases pc with ⟨tid, rfl, he⟩ | he
  · rw [he]
    rfl
  · rw [he]

/-- The first exchange of a call and its return wait for nothing. -/
theorem call_enabled {capacity : ℕ} (t : Tid) (g : Shared T) (f : Frame T)
    (hp : f.phase = .starting ∨ f.phase = .refused) :
    ∃ a r, (program T capacity).act t a g f = some r := by
  obtain ⟨pc, gs⟩ := f
  cases pc with
  | lock tid =>
    exact ⟨.op (.lose g.holderTid) id, (g, ⟨lockContended tid g.holderTid, gs⟩),
      by simp [program, act, Pc.step, Shared.step]⟩
  | ret res => exact ⟨.ret, _, rfl⟩
  | fetchSub res => rcases res with ⟨⟨⟩⟩ | ⟨⟩ <;> simp [Frame.phase, Pc.phase] at hp
  | _ => simp [Frame.phase, Pc.phase] at hp

theorem callCode (x : T) (capacity : ℕ) :
    CallCode (program T capacity) (system x capacity).initial noHandOut Frame.guards
      Frame.phase where
  conserves := conserves capacity
  noHandOut _ _ := id
  empty := by
    rintro s t ⟨stale, rfl⟩
    rfl
  entry := rfl
  returns f h := by
    obtain rfl := returns_cases h
    rfl
  deliver _ _ f := interrupted_phase f.pc
  act := by
    intro s t f below b g' f' hr hs ha
    have ht := validTid_of_reach (x := x) hr (t := t) (by simp [hs])
    have hholder := holderTid_eq_iff (x := x) hr ht
    have hlocal := sound_of_reach (x := x) hr t
    rw [hs] at hlocal
    have hown := hlocal.1
    have hfree : s.shared.holderTid = 0 → guards s t = [] :=
      fun hw => (holderTid_eq_zero_iff (x := x) hr).mp hw t
    cases act_cases ha with
    | lock => exact .inr ⟨rfl, rfl⟩
    | win hw => exact ⟨fun hm => absurd (hfree hw) hm, fun _ => .inr rfl⟩
    | contend =>
      obtain rfl := hown
      constructor
      · exact fun hm => ⟨(lockContended_phase _ _).trans (if_pos (hholder.mpr hm)), rfl, rfl⟩
      · exact fun hm =>
          .inl ⟨(lockContended_phase _ _).trans (if_neg fun hw => hholder.mp hw hm), rfl⟩
    | winContended _ => exact fun _ => .inr rfl
    | lose =>
      obtain rfl := hown
      exact fun hm => .inl ⟨retry_phase fun hw => hholder.mp hw hm, rfl⟩
    | fetchAdd => exact fun _ => .inl ⟨rfl, rfl⟩
    | fence => exact fun _ => .inl ⟨rfl, rfl⟩
    | @fetchSub _ res _ =>
      rcases res with ⟨⟨⟩⟩ | ⟨⟩
      · trivial
      · exact .inl rfl
    | enterRead => exact fun _ => .inl ⟨rfl, rfl⟩
    | read _ => exact fun _ => .inl ⟨rfl, rfl⟩
    | @ret res _ =>
      rcases res with ⟨⟨⟩⟩ | ⟨⟩
      · exact ⟨rfl, rfl, rfl⟩
      · exact .inr rfl
    | fenceUnlock => exact .inl rfl
    | load => exact .inl (by dsimp only [Frame.phase]; split_ifs <;> rfl)
    | write _ => exact .inl rfl
    | writeFull _ => exact .inl rfl
    | writeEintr => exact .inl rfl
    | access _ => exact .inl rfl
    | drop => exact .inl (unlock_phase _ _ _)
  enabled := call_enabled

/-- `lock` reads `gettid` before its first exchange. -/
theorem lock_startsAt (capacity : ℕ) :
    StartsAt (program T capacity) Frame.guards Frame.phase .lock := by
  intro t g f g' f' h
  have ha : act capacity t .lock g f = some (g', f') := h
  cases act_cases ha
  exact ⟨rfl, rfl, rfl⟩

end SignalCrates.PipeLock
