import SignalCrates.FutexReentrancy
import SignalCrates.CallEvents

/-!
# The memory orders of FutexLock

The calls of a FutexLock as events of a C++20 execution. The acquire of the exchanges and
the release of the swap are enough for its critical sections to happen one after the
other, and for the swap to find the word of its own thread.
-/
namespace SignalCrates.FutexLock
open SignalLock FutexWord MemoryModel CallEvents

/-- The operations of a call, with the words that they found: an exchange that takes the
lock, one that sets the waiters bit and one that fails, the ways into and out of
`futex_wait`, an access to the item, and the two steps of the drop. -/
inductive Op
  | win (word : Word)
  | mark (found : Word)
  | lose (found : Word)
  | sleep
  | eagain
  | woken
  | load (found : Word)
  | access
  | swap (found : Word)
  | wake

/-- The code between two operations of one call. -/
def Pc.step : Pc → Op → Option Pc
  | .rawLock tid, .win word => if word = tid then some (.ret (.ok ())) else none
  | .rawLock tid, .lose found => some (rawLockContended tid found)
  | .acquire tid, .win word => if word = tid ||| FUTEX_WAITERS then some (.ret (.ok ())) else none
  | .acquire tid, .lose found => some (rawLockContended tid found)
  | .setWaiters tid word, .mark found =>
    if found = word then some (.wait tid (word ||| FUTEX_WAITERS)) else none
  | .setWaiters tid _, .lose found => some (rawLockContended tid found)
  | .wait tid _, .sleep => some (.waiting tid)
  | .wait tid _, .eagain => some (.reload tid)
  | .waiting tid, .woken => some (.reload tid)
  | .reload tid, .load found => some (rawLockContended tid found)
  | .wake, .wake => some .client
  | _, _ => none

/-- One call of `lock` with the accesses through its guard and the drop of it. -/
structure Session where
  pc : Pc
  guard : Bool

def Session.step (tid : Tid) (k : Session) : Op → Option Session
  | .win word => (k.pc.step (.win word)).map fun pc => ⟨pc, true⟩
  | .access =>
    match k.pc, k.guard with
    | .ret (.ok ()), true => some k
    | _, _ => none
  | .swap found =>
    match k.pc, k.guard with
    | .ret (.ok ()), true => some ⟨rawUnlock tid found, false⟩
    | _, _ => none
  | o => (k.pc.step o).map fun pc => { k with pc := pc }

/-- The calls of `lock`, each by its caller. -/
def code {C : Type*} (caller : C → Tid) : Code C Op Session where
  start c := ⟨.rawLock (caller c), false⟩
  step c := Session.step (caller c)

section Interleaving
variable {T : Type*} {t : Tid} {s s' : Shared T} {f' : Frame T}

/-- The sessions of the interleaving model: an operation inside a call or of a wake. -/
theorem act_op_session {a : Action T} {f : Frame T} (h : act t a s f = some (s', f'))
    (ha : a ≠ .lock ∧ a ≠ .ret ∧ a ≠ .drop ∧ ∀ b, a ≠ .access b) (guard : Bool) :
    ∃ o k, Session.step t ⟨f.pc, guard⟩ o = some k ∧ k.pc = f'.pc := by
  obtain ⟨hlock, hret, hdrop, haccess⟩ := ha
  have hop {pc pc' : Pc} (o : Op) (ho : pc.step o = some pc')
      (hstep : Session.step t ⟨pc, guard⟩ o = (pc.step o).map fun pc => ⟨pc, guard⟩) :
      ∃ o k, Session.step t ⟨pc, guard⟩ o = some k ∧ k.pc = pc' :=
    ⟨o, ⟨pc', guard⟩, by rw [hstep, ho]; rfl, rfl⟩
  cases act_cases h with
  | lock => exact absurd rfl hlock
  | @take b u tid gs hw => exact ⟨.win tid, ⟨.ret (.ok ()), true⟩, by simp [Session.step, Pc.step]⟩
  | contend => exact hop (.lose s.word) rfl rfl
  | @takeContended b u tid gs hw =>
    exact ⟨.win (tid ||| FUTEX_WAITERS), ⟨.ret (.ok ()), true⟩, by simp [Session.step, Pc.step]⟩
  | loseAcquire => exact hop (.lose s.word) rfl rfl
  | @setWaiters b u tid word gs hw => exact hop (.mark word) (by simp [Pc.step]) rfl
  | loseWaiters => exact hop (.lose s.word) rfl rfl
  | sleep _ => exact hop .sleep rfl rfl
  | eagain _ => exact hop .eagain rfl rfl
  | woken _ => exact hop .woken rfl rfl
  | spuriousWake => exact hop .woken rfl rfl
  | load => exact hop (.load s.word) rfl rfl
  | ret => exact absurd rfl hret
  | access _ => exact absurd rfl (haccess _)
  | drop => exact absurd rfl hdrop
  | wakeNone _ => exact hop .wake rfl rfl
  | wakeSome _ => exact hop .wake rfl rfl

/-- The sessions of the interleaving model: the drop of a guard. -/
theorem act_drop_session {g : FutexLockGuard T} {gs : List (FutexLockGuard T)}
    (h : act t .drop s ⟨.client, g :: gs⟩ = some (s', f')) :
    Session.step g.tid ⟨.ret (.ok ()), true⟩ (.swap s.word) = some ⟨f'.pc, false⟩ := by
  cases act_cases h
  rfl

end Interleaving

/-- What the operations of a call have been: with a live guard it has taken the lock and
not freed it, and before it has done neither. -/
def Trail (tid : Tid) (ops : List Op) (k : Session) : Prop :=
  match k.guard with
  | true => k.pc = .ret (.ok ()) ∧ (∃ w, .win w ∈ ops) ∧ ∀ v, .swap v ∉ ops
  | false => k.pc = .wake ∨ k.pc = .client ∨ k.pc = .abort ∨
      k.pc.Sound tid ∧ k.pc ≠ .ret (.ok ()) ∧ (∀ w, .win w ∉ ops) ∧ ∀ v, .swap v ∉ ops

theorem rawLockContended_ne_ok (tid : Tid) (w : Word) :
    rawLockContended tid w ≠ .ret (.ok ()) := by
  unfold rawLockContended
  split_ifs <;> rintro ⟨⟩

theorem rawUnlock_cases (tid : Tid) (w : Word) :
    rawUnlock tid w = .wake ∨ rawUnlock tid w = .client ∨ rawUnlock tid w = .abort := by
  unfold rawUnlock
  split_ifs <;> simp

/-- A step inside the loop neither takes nor frees the lock. -/
theorem trail_loop {tid : Tid} {ops : List Op} {pc pc' : Pc} {o : Op}
    (h : Trail tid ops ⟨pc, false⟩) (hs : pc.step o = some pc')
    (ho : (∀ w, o ≠ .win w) ∧ ∀ v, o ≠ .swap v) : Trail tid (ops ++ [o]) ⟨pc', false⟩ := by
  rcases h with h | h | h | ⟨hsound, hne, hwin, hswap⟩
  · obtain rfl : pc = .wake := h
    cases o <;> simp [Pc.step] at hs
    subst hs
    exact .inr (.inl rfl)
  · obtain rfl : pc = .client := h
    simp [Pc.step] at hs
  · obtain rfl : pc = .abort := h
    simp [Pc.step] at hs
  · have hops : (∀ w, Op.win w ∉ ops ++ [o]) ∧ ∀ v, Op.swap v ∉ ops ++ [o] :=
      ⟨fun w => by simpa [hwin w] using (ho.1 w).symm,
        fun v => by simpa [hswap v] using (ho.2 v).symm⟩
    have hsome (hsound' : pc'.Sound tid) (hne' : pc' ≠ .ret (.ok ())) :
        Trail tid (ops ++ [o]) ⟨pc', false⟩ := .inr (.inr (.inr ⟨hsound', hne', hops⟩))
    have hhead (t : Tid) (w : Word) (ht : t = tid) :
        Trail tid (ops ++ [o]) ⟨rawLockContended t w, false⟩ := by
      subst ht
      exact .inr (.inr (.inr ⟨rawLockContended_sound _ _, rawLockContended_ne_ok _ _, hops⟩))
    cases pc <;> cases o <;>
      simp only [Pc.step, reduceCtorEq, Option.ite_none_right_eq_some, Option.some.injEq] at hs
    case rawLock.win w => exact absurd rfl (ho.1 w)
    case acquire.win w => exact absurd rfl (ho.1 w)
    case setWaiters.mark t word found =>
      obtain ⟨-, rfl⟩ := hs
      exact hsome ⟨hsound.1, or_waiters_and_waiters _⟩ (by rintro ⟨⟩)
    all_goals subst hs
    case rawLock.lose => exact hhead _ _ hsound
    case acquire.lose => exact hhead _ _ hsound
    case setWaiters.lose => exact hhead _ _ hsound.1
    case wait.sleep => exact hsome hsound.1 (by rintro ⟨⟩)
    case wait.eagain => exact hsome hsound.1 (by rintro ⟨⟩)
    case waiting.woken => exact hsome hsound (by rintro ⟨⟩)
    case reload.load => exact hhead _ _ hsound
    case wake.wake => exact .inr (.inl rfl)

theorem trail_step {tid : Tid} {ops : List Op} {k k' : Session} {o : Op}
    (h : Trail tid ops k) (hs : k.step tid o = some k') : Trail tid (ops ++ [o]) k' := by
  obtain ⟨pc, guard⟩ := k
  have hlive (hg : guard = true) : pc = .ret (.ok ()) ∧ (∃ w, .win w ∈ ops) ∧
      ∀ v, .swap v ∉ ops := by
    subst hg
    exact h
  cases o
  case win word =>
    obtain ⟨pc', hpc, rfl⟩ := Option.map_eq_some_iff.mp hs
    cases guard with
    | true =>
      obtain rfl := (hlive rfl).1
      simp [Pc.step] at hpc
    | false =>
      have hret : pc' = .ret (.ok ()) := by cases pc <;> simp [Pc.step] at hpc <;> exact hpc.2.symm
      rcases h with h | h | h | ⟨-, -, -, hswap⟩
      · obtain rfl : pc = .wake := h
        simp [Pc.step] at hpc
      · obtain rfl : pc = .client := h
        simp [Pc.step] at hpc
      · obtain rfl : pc = .abort := h
        simp [Pc.step] at hpc
      · exact ⟨hret, ⟨word, by simp⟩, by simp [hswap]⟩
  case access =>
    simp only [Session.step] at hs
    split at hs
    · obtain rfl := Option.some.inj hs
      obtain ⟨-, ⟨w, hw⟩, hswap⟩ := hlive rfl
      exact ⟨rfl, ⟨w, by simp [hw]⟩, by simp [hswap]⟩
    · cases hs
  case swap found =>
    simp only [Session.step] at hs
    split at hs
    · obtain rfl := Option.some.inj hs
      rcases rawUnlock_cases tid found with he | he | he
      · exact .inl he
      · exact .inr (.inl he)
      · exact .inr (.inr (.inl he))
    · cases hs
  all_goals
    obtain ⟨pc', hpc, rfl⟩ := Option.map_eq_some_iff.mp hs
    cases guard with
    | true =>
      obtain rfl := (hlive rfl).1
      simp [Pc.step] at hpc
    | false => exact trail_loop h hpc ⟨by simp, by simp⟩

/-- The accesses of the source to the futex word and their orderings. The sequentially
consistent load is only taken for the acquire that it includes. -/
def Op.toAccess : Op → Option (Access Unit Word)
  | .win word => some (.update () 0 word .acquire)
  | .mark found => some (.update () found (found ||| FUTEX_WAITERS) .acquire)
  | .lose found => some (.load () found .relaxed)
  | .load found => some (.load () found .seqCst)
  | .swap found => some (.update () found 0 .release)
  | _ => none

/-- The three operations that update the word. -/
theorem Op.of_update {o : Op} {found stored : Word} {ord : MemoryOrder}
    (h : o.toAccess = some (.update () found stored ord)) :
    o = .win stored ∧ found = 0 ∧ ord = .acquire ∨
      o = .mark found ∧ stored = found ||| FUTEX_WAITERS ∧ ord = .acquire ∨
      o = .swap found ∧ stored = 0 ∧ ord = .release := by
  cases o <;> simp only [toAccess, Option.some.injEq, Access.update.injEq, reduceCtorEq] at h
  case win => obtain ⟨-, rfl, rfl, rfl⟩ := h; exact .inl ⟨rfl, rfl, rfl⟩
  case mark => obtain ⟨-, rfl, rfl, rfl⟩ := h; exact .inr (.inl ⟨rfl, rfl, rfl⟩)
  case swap => obtain ⟨-, rfl, rfl, rfl⟩ := h; exact .inr (.inr ⟨rfl, rfl, rfl⟩)

/-- An operation writes the word only by updating it. -/
theorem Op.update_of_writes {o : Op} {a : Access Unit Word} {v : Word} (h : o.toAccess = some a)
    (hw : a.writes = some ((), v)) : ∃ found ord, a = .update () found v ord := by
  cases o <;> simp only [toAccess, Option.some.injEq, reduceCtorEq] at h <;> subst h <;>
    simp only [Access.writes, Option.some.injEq, Prod.mk.injEq, reduceCtorEq] at hw
  all_goals
    obtain ⟨-, rfl⟩ := hw
    exact ⟨_, _, rfl⟩

theorem or_waiters_ne_zero (w : Word) : w ||| FUTEX_WAITERS ≠ 0 := by
  intro h0
  have hw := or_waiters_and_waiters w
  rw [h0] at hw
  exact hw (by decide)

section Events
variable {C E : Type*} {caller : C → Tid} {K : CallExecution (code caller) Unit E}

/-- The exchange that takes the lock, or an operation of the call with its guard live:
an access to the item or the swap. -/
def InSection (K : CallExecution (code caller) Unit E) (e : E) : Prop :=
  (∃ w, K.op e = .win w) ∨ ∃ k, K.At e k ∧ k.guard = true

theorem trail_at {e : E} {k : Session} (h : K.At e k) : Trail (caller (K.call e)) (K.ops e) k := by
  refine Code.invariant (I := Trail (caller (K.call e))) ?_ (fun _ _ _ _ => trail_step) h
  exact .inr (.inr (.inr ⟨rfl, by rintro ⟨⟩, by simp, by simp⟩))

/-- Before it has its guard a call at a point of the loop has neither taken nor freed. -/
theorem trail_before {tid : Tid} {ops : List Op} {pc : Pc} {guard : Bool}
    (h : Trail tid ops ⟨pc, guard⟩) (hpc : pc ≠ .wake ∧ pc ≠ .client ∧ pc ≠ .abort)
    (hret : pc ≠ .ret (.ok ())) :
    pc.Sound tid ∧ (∀ w, .win w ∉ ops) ∧ ∀ v, .swap v ∉ ops := by
  cases guard with
  | true => exact absurd h.1 hret
  | false =>
    obtain ⟨hsound, -, hops⟩ := ((h.resolve_left hpc.1).resolve_left hpc.2.1).resolve_left hpc.2.2
    exact ⟨hsound, hops⟩

theorem of_win {e : E} {w : Word} (he : K.op e = .win w) :
    HeldBy (caller (K.call e)) w ∧ (∀ w', .win w' ∉ K.ops e) ∧ ∀ v, .swap v ∉ K.ops e := by
  obtain ⟨⟨pc, guard⟩, k', hk, hs⟩ := K.exists_at e
  rw [he] at hs
  have htrail := trail_at hk
  obtain ⟨pc', hpc, -⟩ := Option.map_eq_some_iff.mp hs
  cases pc <;> simp [Pc.step] at hpc
  case rawLock tid =>
    obtain ⟨hsound, hops⟩ := trail_before htrail (by simp) (by simp)
    obtain rfl : tid = _ := hsound
    exact ⟨.inl hpc.1, hops⟩
  case acquire tid =>
    obtain ⟨hsound, hops⟩ := trail_before htrail (by simp) (by simp)
    obtain rfl : tid = _ := hsound
    exact ⟨.inr hpc.1, hops⟩

theorem of_mark {e : E} {v : Word} (he : K.op e = .mark v) : v ≠ 0 := by
  obtain ⟨⟨pc, guard⟩, k', hk, hs⟩ := K.exists_at e
  rw [he] at hs
  obtain ⟨pc', hpc, -⟩ := Option.map_eq_some_iff.mp hs
  have htrail := trail_at hk
  cases pc <;> simp [Pc.step] at hpc
  obtain ⟨rfl, -⟩ := hpc
  exact (trail_before htrail (by simp) (by simp)).1.2

theorem of_live {e : E} {k : Session} (h : K.At e k) (hg : k.guard = true) :
    (∃ w, .win w ∈ K.ops e) ∧ ∀ v, .swap v ∉ K.ops e := by
  have htrail := trail_at h
  rw [Trail, hg] at htrail
  exact htrail.2

theorem of_swap {e : E} {v : Word} (he : K.op e = .swap v) : ∃ k, K.At e k ∧ k.guard = true := by
  obtain ⟨⟨pc, guard⟩, k', hk, hs⟩ := K.exists_at e
  rw [he] at hs
  simp only [code, Session.step] at hs
  split at hs
  · exact ⟨_, hk, rfl⟩
  · cases hs

theorem word_locks (hvalid : ∀ c, validTid (caller c) = true) :
    K.Locks Op.toAccess () (fun o => ∃ w, o = .win w) (fun o => ∃ v, o = .swap v) (InSection K)
      fun c => HeldBy (caller c) where
  update e found stored ord ha := by
    rcases Op.of_update ha with ⟨hop, h0, -⟩ | ⟨hop, rfl, -⟩ | ⟨hop, h0, -⟩
    · exact .inl ⟨⟨stored, hop⟩, h0, (of_win hop).1⟩
    · exact .inr (.inl ⟨of_mark hop, or_waiters_ne_zero found, fun _ h => h.or_waiters⟩)
    · exact .inr (.inr ⟨⟨found, hop⟩, h0⟩)
  writes _ _ _ := Op.update_of_writes
  take_access := by
    rintro e ⟨w, he⟩
    exact ⟨w, .acquire, congrArg Op.toAccess he, (of_win he).1.ne_zero (hvalid _), rfl⟩
  free_access := by
    rintro e ⟨v, he⟩
    exact ⟨v, .release, congrArg Op.toAccess he, rfl⟩
  held_take _ := .inl
  held_free := by
    rintro e ⟨v, he⟩
    exact .inr (of_swap he)
  held_taken := by
    rintro e (he | ⟨k, hk, hg⟩)
    · exact .inl he
    · obtain ⟨⟨w, hw⟩, -⟩ := of_live hk hg
      exact .inr ⟨_, hw, w, rfl⟩
  held_not_freed := by
    rintro e (⟨w, he⟩ | ⟨k, hk, hg⟩) o ho ⟨v, rfl⟩
    · exact (of_win he).2.2 v ho
    · exact (of_live hk hg).2 v ho
  take_first := by
    rintro e ⟨w, he⟩ o ho ⟨w', rfl⟩
    exact (of_win he).2.1 w' ho

/-- Of two critical sections everything in the one happens before everything in the other,
so that accesses to the item do not race, and every swap finds the word of its thread. -/
theorem futex_sections_happen_in_order (hvalid : ∀ c, validTid (caller c) = true)
    (hK : (K.execution Op.toAccess).Consistent) :
    (∀ c c', c ≠ c' →
      (∀ x y, InSection K x → InSection K y → K.call x = c → K.call y = c' →
        (K.execution Op.toAccess).HappensBefore (.inr x) (.inr y)) ∨
      ∀ x y, InSection K x → InSection K y → K.call x = c → K.call y = c' →
        (K.execution Op.toAccess).HappensBefore (.inr y) (.inr x)) ∧
    ∀ r v, K.op r = .swap v → HeldBy (caller (K.call r)) v := by
  have hL := word_locks (K := K) hvalid
  constructor
  · exact fun c c' hne => hL.sections_serial K.mo_wf hK hne
  · intro r v hr
    exact hL.frees_holds K.mo_wf hK ⟨v, hr⟩ ⟨_, congrArg Op.toAccess hr, rfl⟩

end Events

/-- The call of thread 2 sleeps until the call of thread 1 has left its section. -/
def handover : List (ℕ × Op) :=
  [(1, .win 1), (2, .lose 1), (2, .mark 1), (2, .sleep), (1, .access),
    (1, .swap (1 ||| FUTEX_WAITERS)), (1, .wake), (2, .woken), (2, .load 0),
    (2, .win (2 ||| FUTEX_WAITERS)), (2, .access), (2, .swap (2 ||| FUTEX_WAITERS)), (2, .wake)]

def handoverCaller (c : ℕ) : Tid := if c = 1 then 1 else 2

def handoverExecution : CallExecution (code handoverCaller) Unit (Fin 13) :=
  .ofList (code handoverCaller) Op.toAccess (fun _ => (0 : Fin 1)) handover (by decide)

/-- The write that an event of `handover` reads. -/
def handoverSource : Fin 13 → Unit ⊕ Fin 13 :=
  ![.inl (), .inr 0, .inr 0, .inl (), .inl (), .inr 2, .inl (), .inl (), .inr 5, .inr 5, .inl (),
    .inr 9, .inl ()]

def handoverAccess : Unit ⊕ Fin 13 → Option (Access Unit Word) :=
  CallExecution.accesses (fun e : Fin 13 => (handover.get e).2) Op.toAccess

def handoverPos : Unit ⊕ Fin 13 → ℕ := CallExecution.listPos fun _ => (0 : Fin 1)

theorem handover_consistent : (handoverExecution.execution Op.toAccess).Consistent := by
  change (CallExecution.listExecution Op.toAccess (fun _ : Unit => (0 : Fin 1)) handover).Consistent
  refine CallExecution.listExecution_consistent (fun _ _ _ => rfl) handoverSource ?_
  have hlast : ∀ e : Fin 13, (Execution.wasRead handoverAccess (.inr e)).isSome = true →
      Execution.LastWrite handoverAccess handoverPos () (handoverSource e) (.inr e) := by decide
  intro (e : Fin 13) lv hlv
  refine ⟨?_, hlast e (Option.isSome_iff_exists.mpr ⟨lv, hlv⟩)⟩
  fin_cases e <;> first | exact hlv | cases hlv

theorem futex_sections_happen_in_order_handover :
    handoverExecution.op 11 = .swap (2 ||| FUTEX_WAITERS) ∧ HeldBy 2 (2 ||| FUTEX_WAITERS) ∧
      ((handoverExecution.execution Op.toAccess).HappensBefore (.inr 4) (.inr 10) ∨
        (handoverExecution.execution Op.toAccess).HappensBefore (.inr 10) (.inr 4)) := by
  have hvalid (c : ℕ) : validTid (handoverCaller c) = true := by
    unfold handoverCaller
    split_ifs <;> decide
  have h := futex_sections_happen_in_order hvalid handover_consistent
  refine ⟨rfl, h.2 11 _ rfl, (h.1 1 2 (by decide)).imp ?_ ?_⟩
  · exact fun h => h 4 10 (.inr ⟨_, rfl, rfl⟩) (.inr ⟨_, rfl, rfl⟩) rfl rfl
  · exact fun h => h 4 10 (.inr ⟨_, rfl, rfl⟩) (.inr ⟨_, rfl, rfl⟩) rfl rfl

end SignalCrates.FutexLock
