import SignalCrates.FutexWake
import SignalCrates.Potential

/-!
# A FutexLock has no livelock

An iteration of the loop in `raw_lock_contended` is caused by a change of the word, by a
wake or by a signal. A frame is stale while such a cause has not yet taken it around the
loop. The lock call that is allowed to change the word pays for all the frames that the
change makes stale, which are no more than the calls in progress.
-/
namespace SignalCrates.FutexLock
open SignalLock TransitionSystem InterruptStack ExclusiveCell FutexWord Potential

variable {T : Type*}

/-- `compare_exchange_weak` fails only on a mismatch, and `futex_wait` returns only on a
mismatch, a wake or a signal. -/
def genuine : Label Tid (Action T) → Bool
  | .act _ (.exchange spurious _) => !spurious
  | .act _ .spuriousWake => false
  | _ => true

def Action.isLock : Action T → Bool
  | .lock => true
  | _ => false

def locks (ls : List (Label Tid (Action T))) : ℕ := ls.countP (Label.isAct Action.isLock)

def lost : Except Word Word → ℕ
  | .ok _ => 0
  | .error _ => 1

/-- 1 when the action enters the head of the loop in `raw_lock_contended`. -/
def iterates (s : Shared T) (f : Frame T) : Action T → ℕ
  | .exchange spurious _ =>
    match f.pc with
    | .rawLock _ => lost (compareExchangeWeak s.word 0 spurious)
    | .acquire _ => lost (compareExchangeWeak s.word 0 spurious)
    | .setWaiters _ word => lost (compareExchangeWeak s.word word spurious)
    | _ => 0
  | .load => 1
  | _ => 0

/-- The iterations of the loop over all frames of a run. -/
def iterations (x : T) (ls : List (Label Tid (Action T))) : ℕ :=
  charge (system x) (onAct iterates) (new x) ls

/-- The call of `lock` has not returned. -/
def Pc.calls : Pc → ℕ
  | .rawLock _ => 1
  | .acquire _ => 1
  | .setWaiters _ _ => 1
  | .wait _ _ => 1
  | .waiting _ => 1
  | .reload _ => 1
  | _ => 0

/-- The frame will go around the loop although the word does not change any more. -/
def Pc.stale (w : Word) : Pc → ℕ
  | .rawLock _ => 1
  | .acquire _ => if w = 0 then 0 else 1
  | .setWaiters _ word => if w = word then 0 else 1
  | .wait _ val => if w = val then 0 else 1
  | .waiting _ => 1
  | .reload _ => 1
  | _ => 0

/-- What a frame may still spend, when at most `n` calls are in progress at a time: each
of its changes of the word costs `n`, its wake costs 1. -/
def Pc.credit (n : ℕ) : Pc → ℕ
  | .wake => 1
  | pc => pc.calls * (3 * n + 1)

def Frame.calls (f : Frame T) : ℕ := f.pc.calls

def Frame.stale (w : Word) (f : Frame T) : ℕ := f.pc.stale w

def Frame.credit (n : ℕ) (f : Frame T) : ℕ := f.pc.credit n + f.guards.length * (n + 1)

/-- A holder has paid for one `FUTEX_WAITERS` bit. -/
def flagCredit (n : ℕ) (w : Word) : ℕ := if w ≠ 0 ∧ w &&& FUTEX_WAITERS = 0 then n else 0

noncomputable def potential (n : ℕ) (s : World T) : ℤ :=
  mass (Frame.stale s.shared.word) s + mass (Frame.credit n) s + flagCredit n s.shared.word -
    s.shared.queue.card

/-- The word for which a frame is about to set the bit does not have it. -/
def Pc.Unflagged : Pc → Prop
  | .setWaiters _ word => word ≠ 0 ∧ word &&& FUTEX_WAITERS = 0
  | _ => True

theorem rawLockContended_unflagged (t : Tid) (w : Word) : (rawLockContended t w).Unflagged := by
  unfold rawLockContended
  split_ifs with h₁ h₂ h₃
  · trivial
  · trivial
  · exact ⟨h₂, h₃⟩
  · trivial

theorem rawUnlock_unflagged (t : Tid) (w : Word) : (rawUnlock t w).Unflagged := by
  unfold rawUnlock
  split_ifs <;> trivial

theorem Acts.unflagged {t : Tid} {a : Action T} {s s' : Shared T} {f f' : Frame T}
    (h : Acts t s a f s' f') : f'.pc.Unflagged := by
  cases h with
  | contend => exact rawLockContended_unflagged _ _
  | loseAcquire => exact rawLockContended_unflagged _ _
  | loseWaiters => exact rawLockContended_unflagged _ _
  | load => exact rawLockContended_unflagged _ _
  | drop => exact rawUnlock_unflagged _ _
  | _ => trivial

theorem unflagged_of_reach {x : T} {ok : World T → Label Tid (Action T) → Prop} {s : World T}
    (h : Reach (system x) ok s) (t : Tid) :
    Layered (fun f _ => f.pc.Unflagged) (s.stack t) := by
  refine layered_of_reach (Q := fun _ f _ => f.pc.Unflagged) h ?_ (fun _ _ => trivial)
    (fun _ _ _ _ h => h) ?_ ?_ t
  · rintro s rfl t
    rfl
  · exact fun s t a f fs g' f' _ _ ha _ => (act_cases ha).unflagged
  · rintro s t f f₀ fs f' f₀' - hh - hf₀
    obtain ⟨gs, rfl, rfl, rfl⟩ := handOut_cases hh
    exact ⟨trivial, hf₀⟩

theorem Pc.stale_le_calls (w : Word) (pc : Pc) : pc.stale w ≤ pc.calls := by
  cases pc <;> simp only [Pc.stale, Pc.calls] <;> first | omega | split_ifs <;> omega

theorem Pc.calls_le_credit (n : ℕ) (pc : Pc) : pc.calls * (3 * n + 1) ≤ pc.credit n := by
  cases pc <;> simp [Pc.calls, Pc.credit]

theorem Pc.credit_client (n : ℕ) : Pc.client.credit n = 0 := by
  simp [Pc.credit, Pc.calls]

/-- A frame at the head of the loop with the current word is not stale. -/
theorem rawLockContended_stale (t : Tid) (w : Word) : (rawLockContended t w).stale w = 0 := by
  unfold rawLockContended
  split_ifs with h₁ h₂ h₃
  · rfl
  · simp [Pc.stale, h₂]
  · simp [Pc.stale]
  · simp [Pc.stale]

theorem rawLockContended_calls (t : Tid) (w : Word) : (rawLockContended t w).calls ≤ 1 := by
  unfold rawLockContended
  split_ifs <;> simp [Pc.calls]

theorem rawLockContended_credit (n : ℕ) (t : Tid) (w : Word) :
    (rawLockContended t w).credit n ≤ 3 * n + 1 := by
  unfold rawLockContended
  split_ifs <;> simp [Pc.credit, Pc.calls]

theorem rawUnlock_calls (t : Tid) (w : Word) : (rawUnlock t w).calls = 0 := by
  unfold rawUnlock
  split_ifs <;> rfl

theorem rawUnlock_credit (n : ℕ) (t : Tid) (w : Word) : (rawUnlock t w).credit n ≤ 1 := by
  unfold rawUnlock
  split_ifs <;> simp [Pc.credit, Pc.calls]

theorem flagCredit_le (n : ℕ) (w : Word) : flagCredit n w ≤ n := by
  unfold flagCredit
  split_ifs <;> omega

theorem flagCredit_zero (n : ℕ) : flagCredit n 0 = 0 := by
  simp [flagCredit]

theorem flagCredit_or_waiters (n : ℕ) (w : Word) : flagCredit n (w ||| FUTEX_WAITERS) = 0 := by
  unfold flagCredit
  rw [if_neg fun h => or_waiters_and_waiters w h.2]

/-- How an action is paid for: without a change of the word by its own frame and by what
leaves the queue, and a change of the word out of the credit of its frame. -/
inductive Paid (n : ℕ) (s : Shared T) (f : Frame T) (s' : Shared T) (f' : Frame T)
    (cost income : ℕ) : Prop
  | keep (hw : s'.word = s.word) (hcalls : f'.calls ≤ f.calls + income)
      (h : f'.stale s.word + f'.credit n + s.queue.card + cost ≤
        f.stale s.word + f.credit n + s'.queue.card + (3 * n + 2) * income)
  | change (hq : s'.queue = s.queue) (hcost : cost = 0) (hcalls : f'.calls ≤ f.calls)
      (h : f'.credit n + flagCredit n s'.word + n ≤ f.credit n + flagCredit n s.word)

/-- A genuine exchange does not lose against the word that it expects. -/
theorem ne_of_lost_rawLock {t tid : Tid} {u : T → T} {s s' : Shared T}
    {gs : List (FutexLockGuard T)} {pc : Pc}
    (h : act t (.exchange false u) s ⟨.rawLock tid, gs⟩ = some (s', ⟨pc, gs⟩)) :
    s.word ≠ 0 := by
  intro hw
  simp [act, compareExchangeWeak, hw, Frame.take] at h

theorem ne_of_lost_acquire {t tid : Tid} {u : T → T} {s s' : Shared T}
    {gs : List (FutexLockGuard T)} {pc : Pc}
    (h : act t (.exchange false u) s ⟨.acquire tid, gs⟩ = some (s', ⟨pc, gs⟩)) :
    s.word ≠ 0 := by
  intro hw
  simp [act, compareExchangeWeak, hw, Frame.take] at h

theorem ne_of_lost_setWaiters {t tid : Tid} {word : Word} {u : T → T} {s : Shared T}
    {f' : Frame T} {gs : List (FutexLockGuard T)} (hf : word &&& FUTEX_WAITERS = 0)
    (h : act t (.exchange false u) s ⟨.setWaiters tid word, gs⟩ = some (s, f')) :
    s.word ≠ word := by
  intro hw
  simp only [act, compareExchangeWeak, hw, and_self, if_true, Option.some.injEq,
    Prod.mk.injEq] at h
  have hor : word ||| FUTEX_WAITERS = s.word := congrArg Shared.word h.1
  rw [hw] at hor
  exact or_waiters_and_waiters word (by rw [hor, hf])

/-- A stale frame pays for the iteration that reads the current word. -/
theorem Paid.head {n : ℕ} {s : Shared T} {pc : Pc} {gs : List (FutexLockGuard T)} (tid : Tid)
    {cost income : ℕ} (hstale : pc.stale s.word = 1) (hcalls : pc.calls = 1) (hcost : cost ≤ 1) :
    Paid n s ⟨pc, gs⟩ s ⟨rawLockContended tid s.word, gs⟩ cost income := by
  have hcredit := pc.calls_le_credit n
  have hs := rawLockContended_stale tid s.word
  have hn := rawLockContended_calls tid s.word
  have hc := rawLockContended_credit n tid s.word
  rw [hcalls, one_mul] at hcredit
  refine .keep rfl ?_ ?_
  · simp only [Frame.calls, hcalls]
    omega
  · simp only [Frame.stale, Frame.credit, hstale, hs]
    omega

theorem act_paid (n : ℕ) {t : Tid} {a : Action T} {s s' : Shared T} {f f' : Frame T}
    (h : act t a s f = some (s', f')) (hgen : genuine (.act t a) = true)
    (hf : f.pc.Unflagged) (hq : (∀ tid, f.pc ≠ .waiting tid) → t ∉ s.queue) :
    Paid n s f s' f' (iterates s f a) a.isLock.toNat := by
  have hlost (r : Except Word Word) : lost r ≤ 1 := by cases r <;> simp [lost]
  cases act_cases h with
  | lock =>
    refine .keep rfl (le_refl 1) ?_
    simp only [Frame.stale, Frame.credit, Pc.stale, Pc.credit, Pc.calls, iterates,
      Action.isLock, Bool.toNat_true]
    omega
  | @take b u tid gs hw =>
    obtain rfl : b = false := by simpa [genuine] using hgen
    have hle := flagCredit_le n tid
    refine .change rfl (by simp [iterates, compareExchangeWeak, hw, lost]) (Nat.zero_le 1) ?_
    simp only [Frame.credit, Pc.credit, Pc.calls, Shared.take, List.length_cons, add_one_mul]
    omega
  | contend => exact .head _ rfl rfl (hlost _)
  | @takeContended b u tid gs hw =>
    obtain rfl : b = false := by simpa [genuine] using hgen
    have hle := flagCredit_le n (tid ||| FUTEX_WAITERS)
    refine .change rfl (by simp [iterates, compareExchangeWeak, hw, lost]) (Nat.zero_le 1) ?_
    simp only [Frame.credit, Pc.credit, Pc.calls, Shared.take, List.length_cons, add_one_mul]
    omega
  | @loseAcquire b u tid gs =>
    obtain rfl : b = false := by simpa [genuine] using hgen
    exact .head _ (if_neg (ne_of_lost_acquire h)) rfl (hlost _)
  | @setWaiters b u tid word gs hw =>
    obtain rfl : b = false := by simpa [genuine] using hgen
    subst hw
    refine .change rfl (by simp [iterates, compareExchangeWeak, lost]) (le_refl 1) ?_
    have hset : flagCredit n s.word = n := if_pos hf
    simp only [Frame.credit, Pc.credit, Pc.calls, flagCredit_or_waiters, hset]
    omega
  | @loseWaiters b u tid word gs =>
    obtain rfl : b = false := by simpa [genuine] using hgen
    exact .head _ (if_neg (ne_of_lost_setWaiters hf.2 h)) rfl (hlost _)
  | sleep hw =>
    have hcard := Finset.card_insert_of_notMem (hq (by rintro tid ⟨⟩))
    refine .keep rfl (le_refl 1) ?_
    simp only [Frame.stale, Frame.credit, Pc.stale, Pc.credit, Pc.calls, iterates, hw, hcard]
    omega
  | eagain hw =>
    refine .keep rfl (le_refl 1) ?_
    simp only [Frame.stale, Frame.credit, Pc.stale, Pc.credit, Pc.calls, iterates, if_neg hw]
    omega
  | woken _ =>
    refine .keep rfl (le_refl 1) ?_
    simp only [Frame.stale, Frame.credit, Pc.stale, Pc.credit, Pc.calls, iterates]
    omega
  | spuriousWake => simp [genuine] at hgen
  | load => exact .head _ rfl rfl (le_refl 1)
  | ret =>
    refine .keep rfl (le_refl 0) ?_
    simp only [Frame.stale, Frame.credit, Pc.stale, Pc.credit, Pc.calls, iterates]
    omega
  | access _ =>
    refine .keep rfl (le_refl 0) ?_
    simp only [Frame.stale, Frame.credit, Pc.stale, Pc.credit, Pc.calls, iterates,
      List.length_cons]
    omega
  | @drop g gs =>
    have hcalls := rawUnlock_calls g.tid s.word
    have hcredit := rawUnlock_credit n g.tid s.word
    refine .change rfl rfl (by simp only [Frame.calls, hcalls]; omega) ?_
    simp only [Frame.credit, Pc.credit_client, flagCredit_zero, List.length_cons, add_one_mul]
    omega
  | wakeNone _ =>
    refine .keep rfl (le_refl 0) ?_
    simp only [Frame.stale, Frame.credit, Pc.stale, Pc.credit, Pc.calls, iterates]
    omega
  | @wakeSome u gs hu =>
    have hcard := Finset.card_erase_add_one hu
    refine .keep rfl (le_refl 0) ?_
    simp only [Frame.stale, Frame.credit, Pc.stale, Pc.credit, Pc.calls, iterates]
    omega

/-- While at most `n` calls are in progress, a change of the word makes at most `n` frames
stale. -/
theorem potential_act (n : ℕ) {s : World T} {t : Tid} {f f' : Frame T} {fs : List (Frame T)}
    {g' : Shared T} {cost income : ℕ} (hs : s.stack t = f :: fs)
    (h : Paid n s.shared f g' f' cost income) (hn : mass Frame.calls s ≤ n) :
    mass Frame.calls (s.put t g' (f' :: fs)) ≤ mass Frame.calls s + income ∧
      potential n (s.put t g' (f' :: fs)) + cost ≤
        potential n s + ((3 * n + 2) * income : ℕ) := by
  have hcalls := mass_put_cons Frame.calls f' g' hs
  have hcredit := mass_put_cons (Frame.credit n) f' g' hs
  cases h with
  | keep hw hc h =>
    have hstale := mass_put_cons (Frame.stale s.shared.word) f' g' hs
    refine ⟨by omega, ?_⟩
    simp only [potential, State.put_shared, hw]
    omega
  | change hq hcost hc h =>
    have hle : ∀ f : Frame T, f.stale g'.word ≤ f.calls := fun f => f.pc.stale_le_calls _
    have hstale := mass_mono hle (s.put t g' (f' :: fs))
    refine ⟨by omega, ?_⟩
    simp only [potential, State.put_shared, hq]
    omega

/-- What a step brings in: a call of `lock` pays for all that it may cause, and a signal
for the `EINTR` of its thread. -/
def income (n : ℕ) (l : Label Tid (Action T)) : ℕ :=
  (3 * n + 2) * (l.isAct Action.isLock).toNat + l.isSignal.toNat

theorem weighs_calls : Weighs (program T) Frame.calls 0 fun _ => 0 where
  entry := rfl
  deliver _ _ f := le_refl f.calls
  returns f h := by
    obtain rfl := returns_cases h
    rfl
  handOut f f₀ f' f₀' h := by
    obtain ⟨gs, rfl, rfl, rfl⟩ := handOut_cases h
    rfl

theorem weighs_stale (w : Word) : Weighs (program T) (Frame.stale w) 0 fun _ => 0 where
  entry := rfl
  deliver _ _ f := le_refl (f.stale w)
  returns f h := by
    obtain rfl := returns_cases h
    rfl
  handOut f f₀ f' f₀' h := by
    obtain ⟨gs, rfl, rfl, rfl⟩ := handOut_cases h
    rfl

theorem weighs_credit (n : ℕ) : Weighs (program T) (Frame.credit n) 0 fun _ => 0 where
  entry := by simp [program, Frame.credit, Pc.credit_client]
  deliver _ _ f := le_refl (f.credit n)
  returns f h := by
    obtain rfl := returns_cases h
    simp [Frame.credit, Pc.credit_client]
  handOut f f₀ f' f₀' h := by
    obtain ⟨gs, rfl, rfl, rfl⟩ := handOut_cases h
    simp only [Frame.credit, Pc.credit_client, List.length_nil, List.length_append, add_mul]
    omega

/-- Only a signal takes a thread out of the queue, and only its own. -/
theorem queue_quiet {s s' : World T} {l : Label Tid (Action T)}
    (h : InterruptStack.next (program T) s l = some s') (hl : ∀ t a, l ≠ .act t a) :
    s'.shared.word = s.shared.word ∧
      s.shared.queue.card ≤ s'.shared.queue.card + l.isSignal.toNat := by
  obtain ⟨t, fs, g', fs', hs, hm, rfl⟩ := next_cases h
  cases hm with
  | spawn _ => exact ⟨rfl, Nat.le_add_right _ _⟩
  | signal => exact ⟨rfl, by
    have := Finset.pred_card_le_card_erase (s := s.shared.queue) (a := t)
    exact Nat.sub_le_iff_le_add.mp this⟩
  | act _ => exact absurd rfl (hl t _)
  | finish _ => exact ⟨rfl, Nat.le_add_right _ _⟩
  | handOut _ => exact ⟨rfl, Nat.le_add_right _ _⟩

theorem potential_quiet (n : ℕ) {s s' : World T} {l : Label Tid (Action T)}
    (h : InterruptStack.next (program T) s l = some s') (hl : ∀ t a, l ≠ .act t a) :
    mass Frame.calls s' ≤ mass Frame.calls s ∧
      potential n s' ≤ potential n s + l.isSignal.toNat := by
  have hcalls := weighs_calls.mass_next h hl
  have hstale := (weighs_stale s.shared.word).mass_next h hl
  have hcredit := (weighs_credit n).mass_next h hl
  have hsignal := onSignal_zero s l
  obtain ⟨hw, hq⟩ := queue_quiet h hl
  rw [hsignal] at hcalls hstale hcredit
  simp only [potential, hw]
  omega

theorem potential_next {x : T} (n : ℕ) {s s' : World T} {l : Label Tid (Action T)}
    (hr : Reach (system x) anyStep s) (hl : genuine l = true) (hn : mass Frame.calls s ≤ n)
    (h : InterruptStack.next (program T) s l = some s') :
    mass Frame.calls s' ≤ mass Frame.calls s + (l.isAct Action.isLock).toNat ∧
      potential n s' + onAct iterates s l ≤ potential n s + income n l := by
  rcases conserves.live_next h with ⟨-, hact⟩ | ⟨t, a, f, fs, g', f', rfl, hs, ha, rfl⟩
  · obtain ⟨hc, hp⟩ := potential_quiet n h hact
    have hcost : onAct iterates s l = 0 := by
      cases l <;> first | rfl | exact absurd rfl (hact _ _)
    rw [hcost, income]
    exact ⟨by omega, by omega⟩
  · have hlocal := unflagged_of_reach hr t
    rw [hs] at hlocal
    have hpaid := act_paid n ha hl hlocal.1 (not_queued (queued_of_reach hr) hs)
    have hcost : onAct iterates s (.act t a) = iterates s.shared f a := by simp [onAct, hs]
    obtain ⟨hc, hp⟩ := potential_act n hs hpaid hn
    refine ⟨hc, ?_⟩
    rw [hcost, income]
    simpa [Label.isAct, Label.isSignal] using hp

/-- All the iterations of a run from the new lock, when `n` bounds the calls still to come
and those in progress. -/
theorem iterations_le {x : T} {ls : List (Label Tid (Action T))} {s : World T}
    (h : run (system x) (new x) ls = some s) (hgen : ∀ l ∈ ls, genuine l = true) :
    iterations x ls ≤ (3 * locks ls + 2) * locks ls + ls.countP Label.isSignal := by
  obtain ⟨n, hn⟩ : ∃ n, n = locks ls := ⟨_, rfl⟩
  let I (s : World T) (as : List (Label Tid (Action T))) : Prop :=
    Reach (system x) anyStep s ∧ (∀ a ∈ as, genuine a = true) ∧ mass Frame.calls s + locks as ≤ n
  have hstep : ∀ s a s' as, I s (a :: as) → (system x).next s a = some s' →
      I s' as ∧ potential n s' + onAct iterates s a ≤ potential n s + income n a := by
    rintro s a s' as ⟨hr, hg, hle⟩ hs
    rw [locks, countP_cons_toNat] at hle
    obtain ⟨hc, hp⟩ := potential_next n hr (hg a List.mem_cons_self) (by omega) hs
    refine ⟨⟨.step hr trivial hs, fun b hb => hg b (List.mem_cons_of_mem _ hb), ?_⟩, hp⟩
    rw [locks]
    omega
  have hzero (w : Frame T → ℕ) : mass w (new x) = 0 := mass_empty fun _ => rfl
  have hI : I (new x) ls := ⟨.initial rfl, hgen, by rw [hzero]; omega⟩
  obtain ⟨⟨hr, -, -⟩, hle⟩ := balance hstep hI h
  have hcost : charge (system x) (fun _ l => income n l) (new x) ls =
      (3 * n + 2) * locks ls + ls.countP Label.isSignal := by
    simp only [income, charge_add, charge_mul, charge_countP h]
    rfl
  have hqueue : s.shared.queue.card ≤ mass (Frame.stale s.shared.word) s := by
    refine card_le_mass fun t ht => ?_
    obtain ⟨tid, gs, fs, he⟩ := queued_of_reach hr t ht
    simp [he, Frame.stale, Pc.stale]
  have hpot : potential n (new x) = 0 := by
    simp only [potential, hzero]
    simp [new, flagCredit]
  rw [hcost, hpot] at hle
  simp only [potential] at hle
  rw [← hn, iterations]
  rw [← hn] at hle
  omega

/-- The steps that a frame can still take before its next iteration, its return or its
sleep, with those of its guards and of its own end. -/
def Pc.work : Pc → ℕ
  | .rawLock _ => 6
  | .acquire _ => 6
  | .setWaiters _ _ => 9
  | .wait _ _ => 8
  | .waiting _ => 7
  | .reload _ => 6
  | .ret _ => 1
  | .wake => 1
  | _ => 0

def FutexLockGuard.work (g : FutexLockGuard T) : ℕ := g.body.stage.left + 2

def Frame.work (f : Frame T) : ℕ := f.pc.work + (f.guards.map FutexLockGuard.work).sum + 1

theorem rawLockContended_work (t : Tid) (w : Word) : (rawLockContended t w).work ≤ 9 := by
  unfold rawLockContended
  split_ifs <;> simp [Pc.work]

theorem rawUnlock_work (t : Tid) (w : Word) : (rawUnlock t w).work ≤ 1 := by
  unfold rawUnlock
  split_ifs <;> simp [Pc.work]

theorem weighs_work : Weighs (program T) Frame.work 1 fun _ => 0 where
  entry := rfl
  deliver _ _ f := le_refl f.work
  returns f h := by rw [returns_cases h]; rfl
  handOut f f₀ f' f₀' h := by
    obtain ⟨gs, rfl, rfl, rfl⟩ := handOut_cases h
    simp only [Frame.work, List.map_append, List.sum_append, List.map_nil, List.sum_nil]
    omega

theorem lost_of_ne {found expected : Word} (h : found ≠ expected) (b : Bool) :
    lost (compareExchangeWeak found expected b) = 1 := by
  simp [compareExchangeWeak, h, lost]

/-- An iteration may add up to three steps to those that its frame had left. -/
theorem head_work (tid : Tid) (w : Word) {pc : Pc} {gs : List (FutexLockGuard T)}
    {cost income : ℕ} (hpc : 6 ≤ pc.work) (hcost : cost = 1) :
    Frame.work ⟨rawLockContended tid w, gs⟩ + 1 ≤ Frame.work ⟨pc, gs⟩ + income + 4 * cost := by
  have hle := rawLockContended_work tid w
  simp only [Frame.work]
  omega

theorem act_work {t : Tid} {a : Action T} {s s' : Shared T} {f f' : Frame T}
    (h : act t a s f = some (s', f')) (hgen : genuine (.act t a) = true)
    (hf : f.pc.Unflagged) :
    f'.work + 1 ≤ f.work + 7 * a.isLock.toNat + 4 * iterates s f a := by
  cases act_cases h with
  | lock =>
    simp only [Frame.work, Pc.work, Action.isLock, Bool.toNat_true]
    omega
  | take _ =>
    simp only [Frame.work, Pc.work, List.map_cons, List.sum_cons, FutexLockGuard.work,
      Section.enter, Stage.left]
    omega
  | @contend b u tid gs =>
    obtain rfl : b = false := by simpa [genuine] using hgen
    exact head_work _ _ (le_refl 6) (lost_of_ne (ne_of_lost_rawLock h) false)
  | takeContended _ =>
    simp only [Frame.work, Pc.work, List.map_cons, List.sum_cons, FutexLockGuard.work,
      Section.enter, Stage.left]
    omega
  | @loseAcquire b u tid gs =>
    obtain rfl : b = false := by simpa [genuine] using hgen
    exact head_work _ _ (le_refl 6) (lost_of_ne (ne_of_lost_acquire h) false)
  | @loseWaiters b u tid word gs =>
    obtain rfl : b = false := by simpa [genuine] using hgen
    exact head_work _ _ (Nat.le_add_right 6 3) (lost_of_ne (ne_of_lost_setWaiters hf.2 h) false)
  | spuriousWake => simp [genuine] at hgen
  | load => exact head_work _ _ (le_refl 6) rfl
  | access hk =>
    have hleft := Section.access_left hk
    simp only [Frame.work, List.map_cons, List.sum_cons, FutexLockGuard.work]
    omega
  | @drop g gs =>
    have hle := rawUnlock_work g.tid s.word
    have hclient : Pc.client.work = 0 := rfl
    simp only [Frame.work, hclient, List.map_cons, List.sum_cons, FutexLockGuard.work]
    omega
  | _ =>
    simp only [Frame.work, Pc.work]
    omega

/-- What the steps of a run may be charged to, iterations apart. -/
def fare (l : Label Tid (Action T)) : ℕ :=
  7 * (l.isAct Action.isLock).toNat +
    (2 * (l.isSpawn.toNat + l.isSignal.toNat) + l.isHandOut.toNat)

theorem work_next {x : T} {s s' : World T} {l : Label Tid (Action T)}
    (hr : Reach (system x) anyStep s) (hl : genuine l = true)
    (h : InterruptStack.next (program T) s l = some s') :
    mass Frame.work s' + 1 ≤ mass Frame.work s + (fare l + 4 * onAct iterates s l) := by
  rcases conserves.live_next h with ⟨-, hact⟩ | ⟨t, a, f, fs, g', f', rfl, hs, ha, rfl⟩
  · have hw := weighs_work.mass_next h hact
    have hsignal := onSignal_zero s l
    rw [hsignal] at hw
    cases l with
    | act t a => exact absurd rfl (hact t a)
    | _ =>
      simp only [fare, Label.isAct, Label.isSpawn, Label.isSignal, Label.isHandOut,
        Label.isFinish, Bool.toNat_true, Bool.toNat_false] at hw ⊢
      omega
  · have hlocal := unflagged_of_reach hr t
    rw [hs] at hlocal
    have hcost : onAct iterates s (.act t a) = iterates s.shared f a := by simp [onAct, hs]
    have hwork := act_work ha hl hlocal.1
    have hput := mass_put_cons Frame.work f' g' hs
    simp only [hcost, fare, Label.isAct, Label.isSpawn, Label.isSignal, Label.isHandOut,
      Bool.toNat_false]
    omega

theorem length_le {x : T} {ls : List (Label Tid (Action T))} {s : World T}
    (h : run (system x) (new x) ls = some s) (hgen : ∀ l ∈ ls, genuine l = true) :
    ls.length ≤ 7 * locks ls + 2 * (ls.countP Label.isSpawn + ls.countP Label.isSignal) +
      ls.countP Label.isHandOut + 4 * iterations x ls := by
  let Φ (s : World T) : ℤ := mass Frame.work s
  let I (s : World T) (as : List (Label Tid (Action T))) : Prop :=
    Reach (system x) anyStep s ∧ ∀ a ∈ as, genuine a = true
  have hstep : ∀ s a s' as, I s (a :: as) → (system x).next s a = some s' →
      I s' as ∧ Φ s' + ((fun _ _ => 1 : World T → Label Tid (Action T) → ℕ) s a : ℕ) ≤
        Φ s + (fare a + 4 * onAct iterates s a : ℕ) := by
    rintro s a s' as ⟨hr, hg⟩ hs
    have hw := work_next hr (hg a List.mem_cons_self) hs
    exact ⟨⟨.step hr trivial hs, fun b hb => hg b (List.mem_cons_of_mem _ hb)⟩, by
      simp only [Φ]; omega⟩
  obtain ⟨-, hle⟩ := balance hstep ⟨.initial rfl, hgen⟩ h
  have hzero : Φ (new x) = 0 := congrArg Nat.cast (mass_empty fun _ => rfl)
  have hpos : 0 ≤ Φ s := Int.natCast_nonneg _
  have hcost : charge (system x) (fun _ _ => 1) (new x) ls = ls.length := by
    rw [charge_label h]
    simp
  have hincome : charge (system x) (fun s l => fare l + 4 * onAct iterates s l) (new x) ls =
      7 * locks ls + (2 * (ls.countP Label.isSpawn + ls.countP Label.isSignal) +
        ls.countP Label.isHandOut) + 4 * iterations x ls := by
    simp only [fare, charge_add, charge_mul, charge_countP h]
    rfl
  rw [hcost, hincome, hzero] at hle
  omega

/-- The steps that a workload consists of: its threads, its signals, its calls of `lock`,
and the guards that handlers leave behind. Every acquisition allows one drop. -/
def workload (l : Label Tid (Action T)) : Bool :=
  l.isSpawn || l.isSignal || l.isHandOut || l.isAct Action.isLock

/-- Over a whole run, in any order of steps, the iterations are bounded by the calls of
`lock` and the signals, and the steps by the workload; no infinite run has a finite one. -/
theorem futex_no_livelock (x : T) :
    (∀ ls s, run (system x) (new x) ls = some s → (∀ l ∈ ls, genuine l = true) →
      iterations x ls ≤ (3 * locks ls + 2) * locks ls + ls.countP Label.isSignal ∧
      ls.length ≤ 7 * locks ls + 2 * (ls.countP Label.isSpawn + ls.countP Label.isSignal) +
        ls.countP Label.isHandOut + 4 * iterations x ls) ∧
    ∀ l : ℕ → Label Tid (Action T), (∀ n, genuine (l n) = true) →
      {n | workload (l n) = true}.Finite → ¬ Endless (system x) (new x) l := by
  refine ⟨fun ls s h hgen => ⟨iterations_le h hgen, length_le h hgen⟩, ?_⟩
  intro l hgen hwork
  refine not_endless workload (fun ls => ∀ l ∈ ls, genuine l = true)
    (fun n => 12 * n + 4 * ((3 * n + 2) * n + n)) ?_ ?_ ?_ hwork
  · intro m n hmn
    have hmul := Nat.mul_le_mul (show 3 * m + 2 ≤ 3 * n + 2 by omega) hmn
    simp only
    omega
  · intro ls s hg h
    have hlen := length_le h hg
    have hiter := iterations_le h hg
    have hwork := countP_le_workload Action.isLock ls
    change _ ≤ ls.countP workload ∧ _ ≤ ls.countP workload ∧ _ ≤ ls.countP workload ∧
      _ ≤ ls.countP workload at hwork
    obtain ⟨hspawn, hsignal, hout, hlocks⟩ := hwork
    have hmul : (3 * locks ls + 2) * locks ls ≤
        (3 * ls.countP workload + 2) * ls.countP workload :=
      Nat.mul_le_mul (by unfold locks; omega) hlocks
    unfold locks at *
    omega
  · intro n a ha
    obtain ⟨i, -, rfl⟩ := List.mem_map.mp ha
    exact hgen i

theorem futex_no_livelock_contention :
    (∃ s, run (system 5) (new 5) contention = some s ∧ iterations 5 contention = 1 ∧
      iterations 5 contention ≤ (3 * 2 + 2) * 2) ∧
    ¬ Endless (system 5) (new 5) fun _ => .act 1 .load := by
  obtain ⟨hruns, hendless⟩ := futex_no_livelock 5
  constructor
  · have hs : run (system 5) (new 5) contention = some _ := rfl
    refine ⟨_, hs, rfl, (hruns contention _ hs ?_).1⟩
    simp [contention, genuine]
  · refine hendless (fun _ => .act 1 .load) (fun _ => rfl) ?_
    simp [workload, Label.isSpawn, Label.isSignal, Label.isHandOut, Label.isAct, Action.isLock]

end SignalCrates.FutexLock
