import SignalCrates.PipeExclusion

/-!
# What `waiters` counts

A frame is registered from its `fetch_add` to its `fetch_sub`. The counter is the
number of registered frames modulo `2 ^ 32`.
-/
namespace SignalCrates.PipeLock
open SignalLock TransitionSystem InterruptStack ExclusiveCell

variable {T : Type*}

/-- The frame's unit of `waiters`. -/
def Pc.registered : Pc → List Unit
  | .fence _ => [()]
  | .exchange _ => [()]
  | .read _ => [()]
  | .reading _ => [()]
  | .fetchSub _ => [()]
  | _ => []

def Frame.registered (f : Frame T) : List Unit := f.pc.registered

/-- Runs in which fewer than `2 ^ 32` frames are registered at any time. -/
def noWrap (s : World T) (_ : Label Tid (Action T)) : Prop :=
  total Frame.registered s < 2 ^ 32

theorem lockContended_registered (t holder : Tid) : (lockContended t holder).registered = [] := by
  unfold lockContended
  split_ifs <;> rfl

theorem retry_registered (t holder : Tid) : (retry t holder).registered = [()] := by
  unfold retry
  split_ifs <;> rfl

theorem unlock_registered (t holder : Tid) (contended : Bool) :
    (unlock t contended holder).registered = [] := by
  unfold unlock
  split_ifs <;> rfl

theorem interrupted_registered (pc : Pc) :
    ((pc.step .readEintr).getD pc).registered = pc.registered := by
  rcases interrupted_cases pc with ⟨tid, rfl, he⟩ | he
  · rw [he]
    rfl
  · rw [he]

theorem conserves_registered (capacity : ℕ) :
    Conserves (program T capacity) Frame.registered where
  entry := rfl
  deliver _ _ f := interrupted_registered f.pc
  returns f h := by
    obtain rfl := returns_cases h
    rfl
  handOut f f₀ f' f₀' h := by
    obtain ⟨gs, rfl, rfl, rfl⟩ := handOut_cases h
    rfl

/-- An action changes `waiters` by what it changes in its own frame's registration. -/
theorem Acts.waiters {capacity : ℕ} {t : Tid} {a : Action T} {s s' : Shared T}
    {f f' : Frame T} (h : Acts capacity t s a f s' f') :
    s'.waiters + BitVec.ofNat 32 f.registered.length =
      s.waiters + BitVec.ofNat 32 f'.registered.length := by
  cases h with
  | contend => simp only [Frame.registered, lockContended_registered]; rfl
  | lose => simp only [Frame.registered, retry_registered]; rfl
  | drop => simp only [Frame.registered, unlock_registered]; rfl
  | load => split_ifs <;> rfl
  | fetchAdd => simp [Frame.registered, Pc.registered]
  | fetchSub => simp [Frame.registered, Pc.registered]
  | _ => rfl

theorem total_new (x : T) (stale : ℕ) : total Frame.registered (new x stale) = 0 := by
  unfold total
  simp [live, new]

theorem waiters_eq_total {x : T} {capacity : ℕ} {ok : World T → Label Tid (Action T) → Prop}
    {s : World T} (h : Reach (system x capacity) ok s) :
    s.shared.waiters = BitVec.ofNat 32 (total Frame.registered s) := by
  refine h.invariant (I := fun s => s.shared.waiters =
    BitVec.ofNat 32 (total Frame.registered s)) ?_ ?_
  · rintro s ⟨stale, rfl⟩
    rw [total_new]
    rfl
  · intro s l s' _ hI _ hn
    rcases (conserves_registered capacity).live_next hn with
      ⟨hl, hact⟩ | ⟨t, b, f, fs, g', f', rfl, hs, ha, rfl⟩
    · rw [total_congr hl]
      rcases shared_next hn hact with he | ⟨t, f, he⟩ <;> rw [he] <;> exact hI
    · have hw := (act_cases ha).waiters
      have hsum : total Frame.registered (s.put t g' (f' :: fs)) + _ = _ := total_put g' hs
      have ht := congrArg (BitVec.ofNat 32) hsum
      rw [BitVec.ofNat_add, BitVec.ofNat_add] at ht
      rw [hI] at hw
      rw [State.put_shared]
      exact add_right_cancel (hw.trans ht.symm)

/-- While some frame is registered and the counter has not wrapped, it is positive. -/
theorem waiters_ne_zero {x : T} {capacity : ℕ} {ok : World T → Label Tid (Action T) → Prop}
    {s : World T} (h : Reach (system x capacity) ok s) (hs : total Frame.registered s < 2 ^ 32)
    {u : Tid} {f : Frame T} (hf : f ∈ s.stack u) (hr : f.registered = [()]) :
    s.shared.waiters ≠ 0 := by
  have hpos : 0 < (live Frame.registered s u).length := by
    refine List.length_pos_of_mem (a := ()) (List.mem_flatMap.mpr ⟨f, hf, ?_⟩)
    rw [hr]
    exact List.mem_singleton_self _
  have hle := length_le_total Frame.registered s u
  intro h0
  have hn := congrArg BitVec.toNat ((waiters_eq_total h).symm.trans h0)
  rw [BitVec.toNat_ofNat, Nat.mod_eq_of_lt hs] at hn
  change total Frame.registered s = 0 at hn
  omega

theorem registered_length_le (f : Frame T) : f.registered.length ≤ 1 := by
  obtain ⟨pc, gs⟩ := f
  cases pc <;> first | exact le_refl 1 | exact Nat.zero_le 1

theorem total_next_le {capacity : ℕ} {s s' : World T} {l : Label Tid (Action T)}
    (h : InterruptStack.next (program T capacity) s l = some s') :
    total Frame.registered s' ≤ total Frame.registered s + 1 := by
  rcases (conserves_registered capacity).live_next h with
    ⟨hl, -⟩ | ⟨t, b, f, fs, g', f', rfl, hs, -, rfl⟩
  · rw [total_congr hl]
    omega
  · have hsum : total Frame.registered (s.put t g' (f' :: fs)) + _ = _ := total_put g' hs
    have hle := registered_length_le f'
    omega

/-- A run that starts with few registered frames and is short does not wrap. -/
theorem reach_noWrap {x : T} {capacity : ℕ} {ls : List (Label Tid (Action T))} {s s' : World T}
    (h : Reach (system x capacity) noWrap s)
    (hfew : total Frame.registered s + ls.length ≤ 2 ^ 32)
    (hr : run (system x capacity) s ls = some s') : Reach (system x capacity) noWrap s' := by
  induction ls generalizing s with
  | nil =>
    obtain rfl : s = s' := by simpa [run] using hr
    exact h
  | cons l ls ih =>
    obtain ⟨s₁, hs, hr⟩ := Option.bind_eq_some_iff.mp hr
    have hle : total Frame.registered s₁ ≤ total Frame.registered s + 1 := total_next_le hs
    rw [List.length_cons] at hfew
    have hok : noWrap s l := by
      change total Frame.registered s < 2 ^ 32
      omega
    exact ih (.step h hok hs) (by omega) hr

end SignalCrates.PipeLock
