import SignalCrates.PipeFences

/-!
# The memory orders of `holder_tid`

The acquire of the exchanges and the release of the swap protect the critical section of a
PipeLock without the help of its fences: sections happen one after the other, and every
swap finds the tid of its own thread.
-/
namespace SignalCrates.PipeLock
open SignalLock MemoryModel CallEvents

/-- The points of a call after its guard has been dropped. -/
def Pc.Dropped : Pc → Prop
  | .fenceUnlock => True
  | .load => True
  | .write => True
  | .client => True
  | .abort => True
  | _ => False

/-- What the operations of a call have been: with a live guard it has taken the lock and
not freed it, and before it has done neither. -/
def Guarded (tid : Tid) (ops : List Op) (k : Session) : Prop :=
  match k.guard with
  | some _ => (k.pc = .fetchSub (.ok ()) ∨ k.pc = .ret (.ok ())) ∧ .win tid ∈ ops ∧
      ∀ v, .swap v ∉ ops
  | none => k.pc.Dropped ∨ k.pc.Sound tid ∧ k.pc ≠ .fetchSub (.ok ()) ∧ k.pc ≠ .ret (.ok ()) ∧
      (∀ t, .win t ∉ ops) ∧ ∀ v, .swap v ∉ ops

theorem unlock_dropped (tid : Tid) (contended : Bool) (found : Tid) :
    (unlock tid contended found).Dropped := by
  unfold unlock
  split_ifs <;> trivial

theorem retry_ne_ok (tid found : Tid) :
    retry tid found ≠ .fetchSub (.ok ()) ∧ retry tid found ≠ .ret (.ok ()) := by
  unfold retry
  split_ifs <;> exact ⟨by rintro ⟨⟩, by rintro ⟨⟩⟩

theorem lockContended_ne_ok (tid found : Tid) :
    lockContended tid found ≠ .fetchSub (.ok ()) ∧ lockContended tid found ≠ .ret (.ok ()) := by
  unfold lockContended
  split_ifs <;> exact ⟨by rintro ⟨⟩, by rintro ⟨⟩⟩

/-- A step that neither takes nor frees the lock. -/
theorem guarded_pc {tid : Tid} {ops : List Op} {pc pc' : Pc} {guard : Option Bool} {o : Op}
    (h : Guarded tid ops ⟨pc, guard⟩) (hs : pc.step o = some pc')
    (ho : (∀ t, o ≠ .win t) ∧ ∀ v, o ≠ .swap v) : Guarded tid (ops ++ [o]) ⟨pc', guard⟩ := by
  have hwin (hno : ∀ t, Op.win t ∉ ops) (t : Tid) : Op.win t ∉ ops ++ [o] := by
    simpa [hno t] using (ho.1 t).symm
  have hswap (hno : ∀ v, Op.swap v ∉ ops) (v : Tid) : Op.swap v ∉ ops ++ [o] := by
    simpa [hno v] using (ho.2 v).symm
  cases guard with
  | some contended =>
    obtain ⟨hpc, hwon, hno⟩ := h
    rcases hpc with hpc | hpc
    · obtain rfl : pc = .fetchSub (.ok ()) := hpc
      cases o <;> simp [Pc.step] at hs
      subst hs
      exact ⟨.inr rfl, by simp [hwon], hswap hno⟩
    · obtain rfl : pc = .ret (.ok ()) := hpc
      simp [Pc.step] at hs
  | none =>
    rcases h with h | ⟨hsound, hsub, hret, hnowin, hnoswap⟩
    · refine .inl ?_
      change pc.Dropped at h
      cases pc <;> cases o <;>
        simp only [Pc.step, reduceCtorEq, Option.ite_none_right_eq_some,
          Option.some.injEq] at hs <;>
        first | exact h.elim | (subst hs; first | trivial | (split_ifs <;> trivial))
    · have hnone (hsound' : pc'.Sound tid)
          (hne : pc' ≠ .fetchSub (.ok ()) ∧ pc' ≠ .ret (.ok ())) :
          Guarded tid (ops ++ [o]) ⟨pc', none⟩ :=
        .inr ⟨hsound', hne.1, hne.2, hwin hnowin, hswap hnoswap⟩
      cases pc <;> cases o <;>
        simp only [Pc.step, reduceCtorEq, Option.ite_none_right_eq_some, Option.some.injEq] at hs
      case lock.win t => exact absurd rfl (ho.1 t)
      case exchange.win t => exact absurd rfl (ho.1 t)
      all_goals subst hs
      case lock.lose =>
        obtain rfl := hsound
        exact hnone (lockContended_sound _ _) (lockContended_ne_ok _ _)
      case exchange.lose =>
        obtain rfl := hsound
        exact hnone (retry_sound _ _) (retry_ne_ok _ _)
      case fetchSub.fetchSub res =>
        refine hnone trivial ⟨by rintro ⟨⟩, fun h => hsub ?_⟩
        rw [Pc.ret.inj h]
      case load.load => exact .inl (by dsimp only [Pc.Dropped]; split_ifs <;> trivial)
      case fenceUnlock.fence => exact .inl trivial
      case write.write => exact .inl trivial
      case write.writeEintr => exact .inl trivial
      all_goals exact hnone hsound ⟨by rintro ⟨⟩, by rintro ⟨⟩⟩

theorem guarded_step {tid : Tid} {ops : List Op} {k k' : Session} {o : Op}
    (h : Guarded tid ops k) (hs : k.step tid o = some k') : Guarded tid (ops ++ [o]) k' := by
  obtain ⟨pc, guard⟩ := k
  cases o
  case win t =>
    obtain ⟨pc', hpc, rfl⟩ := Option.map_eq_some_iff.mp hs
    have hpc' : (pc = .lock t ∧ pc' = .ret (.ok ()) ∨
        pc = .exchange t ∧ pc' = .fetchSub (.ok ())) := by
      cases pc <;> simp [Pc.step] at hpc
      · exact .inl ⟨by rw [hpc.1], hpc.2.symm⟩
      · exact .inr ⟨by rw [hpc.1], hpc.2.symm⟩
    cases guard with
    | some contended => rcases hpc' with ⟨rfl, -⟩ | ⟨rfl, -⟩ <;> simp [Guarded] at h
    | none =>
      rcases hpc' with ⟨rfl, rfl⟩ | ⟨rfl, rfl⟩
      · obtain ⟨hsound, -, -, -, hswap⟩ := h.resolve_left id
        obtain rfl : t = tid := hsound
        exact ⟨.inr rfl, by simp, by simp [hswap]⟩
      · obtain ⟨hsound, -, -, -, hswap⟩ := h.resolve_left id
        obtain rfl : t = tid := hsound
        exact ⟨.inl rfl, by simp, by simp [hswap]⟩
  case swap found =>
    simp only [Session.step] at hs
    split at hs
    · obtain rfl := Option.some.inj hs
      exact .inl (unlock_dropped _ _ _)
    · cases hs
  all_goals
    obtain ⟨pc', hpc, rfl⟩ := Option.map_eq_some_iff.mp hs
    exact guarded_pc h hpc ⟨by simp, by simp⟩

/-- The two operations that update `holder_tid`. -/
theorem SessionOp.of_update {x : SessionOp} {found stored : Tid} {ord : MemoryOrder}
    (h : x.toAccess = some (.update .holderTid found stored ord)) :
    x.toOp = some (.win stored) ∧ found = 0 ∧ ord = .acquire ∨
      x.toOp = some (.swap found) ∧ stored = 0 ∧ ord = .release := by
  cases x with
  | access => cases h
  | op o n =>
    cases o <;>
      simp only [toAccess, Op.access, Option.some.injEq, Access.update.injEq, reduceCtorEq] at h
    case win => obtain ⟨-, rfl, rfl, rfl⟩ := h; exact .inl ⟨rfl, rfl, rfl⟩
    case swap => obtain ⟨-, rfl, rfl, rfl⟩ := h; exact .inr ⟨rfl, rfl, rfl⟩
    all_goals exact absurd h.1 (by rintro ⟨⟩)

/-- An operation writes `holder_tid` only by updating it. -/
theorem SessionOp.update_of_writes {x : SessionOp} {a : Access Location (BitVec 32)} {v : Tid}
    (h : x.toAccess = some a) (hw : a.writes = some (.holderTid, v)) :
    ∃ found ord, a = .update .holderTid found v ord := by
  cases x with
  | access => cases h
  | op o n =>
    cases o <;> simp only [toAccess, Op.access, Option.some.injEq, reduceCtorEq] at h <;>
      subst h <;>
      simp only [Access.writes, Option.some.injEq, Prod.mk.injEq, reduceCtorEq, false_and] at hw
    all_goals
      obtain ⟨-, rfl⟩ := hw
      exact ⟨_, _, rfl⟩

namespace CallExecution
variable {C E : Type*} {caller : C → Tid} {K : CallExecution caller E}

/-- The exchange that takes the lock, or an operation of the call with its guard live: the
`fetch_sub`, an access to the item or the swap. -/
def InSection (K : CallExecution caller E) (e : E) : Prop :=
  (∃ t, K.Makes e (.win t)) ∨ ∃ k, K.At e k ∧ k.guard.isSome = true

theorem guarded_at {e : E} {k : Session} (h : K.At e k) :
    Guarded (caller (K.call e)) (K.made e) k := by
  refine code_invariant (I := Guarded (caller (K.call e))) ?_ (fun _ _ _ _ => guarded_step) h
  exact .inr ⟨rfl, by rintro ⟨⟩, by rintro ⟨⟩, by simp, by simp⟩

theorem of_win {e : E} {t : Tid} (he : K.Makes e (.win t)) :
    t = caller (K.call e) ∧ (∀ t, .win t ∉ K.made e) ∧ ∀ v, .swap v ∉ K.made e := by
  obtain ⟨⟨pc, guard⟩, k', hk, hs⟩ := he.exists_at
  have hg := guarded_at hk
  obtain ⟨pc', hpc, -⟩ := Option.map_eq_some_iff.mp hs
  cases guard with
  | some contended =>
    rcases hg.1 with h | h
    · obtain rfl : pc = .fetchSub (.ok ()) := h
      simp [Pc.step] at hpc
    · obtain rfl : pc = .ret (.ok ()) := h
      simp [Pc.step] at hpc
  | none =>
    cases pc <;> simp [Pc.step] at hpc
    case lock tid =>
      obtain ⟨hsound, -, -, hops⟩ := hg.resolve_left id
      obtain rfl : tid = _ := hsound
      exact ⟨hpc.1, hops⟩
    case exchange tid =>
      obtain ⟨hsound, -, -, hops⟩ := hg.resolve_left id
      obtain rfl : tid = _ := hsound
      exact ⟨hpc.1, hops⟩

theorem of_guard {e : E} {k : Session} (h : K.At e k) (hg : k.guard.isSome = true) :
    .win (caller (K.call e)) ∈ K.made e ∧ ∀ v, .swap v ∉ K.made e := by
  obtain ⟨contended, hg⟩ := Option.isSome_iff_exists.mp hg
  have hguarded := guarded_at h
  rw [Guarded, hg] at hguarded
  exact hguarded.2

theorem of_swap {e : E} {v : Tid} (he : K.Makes e (.swap v)) :
    ∃ k, K.At e k ∧ k.guard.isSome = true := by
  obtain ⟨⟨pc, guard⟩, k', hk, hs⟩ := he.exists_at
  simp only [Session.step] at hs
  split at hs
  · exact ⟨_, hk, rfl⟩
  · cases hs

theorem made_of_mem_ops {e : E} {x : SessionOp} {o : Op} (hx : x ∈ K.ops e)
    (ho : x.toOp = some o) : o ∈ K.made e := List.mem_filterMap.mpr ⟨x, hx, ho⟩

theorem holderTid_locks (htid : ∀ c, caller c ≠ 0) :
    K.Locks SessionOp.toAccess .holderTid (fun x => ∃ t, x.toOp = some (.win t))
      (fun x => ∃ v, x.toOp = some (.swap v)) K.InSection fun c v => v = caller c where
  update e found stored ord ha := by
    rcases SessionOp.of_update ha with ⟨hop, h0, -⟩ | ⟨hop, h0, -⟩
    · exact .inl ⟨⟨stored, hop⟩, h0, (of_win hop).1⟩
    · exact .inr (.inr ⟨⟨found, hop⟩, h0⟩)
  writes _ _ _ := SessionOp.update_of_writes
  take_access := by
    rintro e ⟨t, he⟩
    obtain ⟨found, ha⟩ := Makes.exists_access he
    exact ⟨t, .acquire, ha, (of_win he).1 ▸ htid _, rfl⟩
  free_access := by
    rintro e ⟨v, he⟩
    obtain ⟨found, ha⟩ := Makes.exists_access he
    exact ⟨v, .release, ha, rfl⟩
  held_take _ := .inl
  held_free := by
    rintro e ⟨v, he⟩
    exact .inr (of_swap he)
  held_taken := by
    rintro e (he | ⟨k, hk, hg⟩)
    · exact .inl he
    · obtain ⟨x, hx, hwin⟩ := List.mem_filterMap.mp (of_guard hk hg).1
      exact .inr ⟨x, hx, _, hwin⟩
  held_not_freed := by
    rintro e (⟨t, he⟩ | ⟨k, hk, hg⟩) x hx ⟨v, hswap⟩
    · exact (of_win he).2.2 v (made_of_mem_ops hx hswap)
    · exact (of_guard hk hg).2 v (made_of_mem_ops hx hswap)
  take_first := by
    rintro e ⟨t, he⟩ x hx ⟨t', hwin⟩
    exact (of_win he).2.1 t' (made_of_mem_ops hx hwin)

/-- Of two critical sections everything in the one happens before everything in the other,
so that accesses to the item do not race, and every swap finds the tid of its thread, so
that `unlock` does not abort. -/
theorem pipe_sections_happen_in_order (hK : K.execution.Consistent) (hwf : WellFounded K.mo)
    (htid : ∀ c, caller c ≠ 0) :
    (∀ c c', c ≠ c' →
      (∀ x y, K.InSection x → K.InSection y → K.call x = c → K.call y = c' →
        K.execution.HappensBefore (.inr x) (.inr y)) ∨
      ∀ x y, K.InSection x → K.InSection y → K.call x = c → K.call y = c' →
        K.execution.HappensBefore (.inr y) (.inr x)) ∧
    ∀ r v, K.Makes r (.swap v) → v = caller (K.call r) := by
  have hL := holderTid_locks (K := K) htid
  constructor
  · exact fun c c' hne => hL.sections_serial hwf hK hne
  · intro r v hr
    obtain ⟨found, ha⟩ := hr.exists_access
    exact hL.frees_holds hwf hK ⟨v, hr⟩ ⟨_, ha, rfl⟩

/-- The accesses of the two sections of `blocked`. -/
theorem pipe_sections_happen_in_order_blocked :
    blockedCalls.op 6 = .access ∧ blockedCalls.op 14 = .access ∧
      (blockedCalls.execution.HappensBefore (.inr 6) (.inr 14) ∨
        blockedCalls.execution.HappensBefore (.inr 14) (.inr 6)) ∧
      blockedCalls.Makes 15 (.swap 2) ∧ blockedCaller 1 = 2 := by
  have htid : ∀ c, blockedCaller c ≠ 0 := by decide
  have h := pipe_sections_happen_in_order (K := blockedCalls) blocked_consistent
    blockedExecution.mo_wf htid
  have h6 : blockedCalls.InSection 6 := .inr ⟨⟨.ret (.ok ()), some false⟩, rfl, rfl⟩
  have h14 : blockedCalls.InSection 14 := .inr ⟨⟨.ret (.ok ()), some true⟩, rfl, rfl⟩
  refine ⟨rfl, rfl, (h.1 0 1 (by decide)).imp ?_ ?_, rfl, (h.2 15 2 rfl).symm⟩
  · exact fun h => h 6 14 h6 h14 rfl rfl
  · exact fun h => h 6 14 h6 h14 rfl rfl

end CallExecution

end SignalCrates.PipeLock
