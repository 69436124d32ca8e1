import SignalCrates.CallEvents
import SignalCrates.PipeWaiters

/-!
# The fences of PipeLock

The calls of a PipeLock as events of a C++20 execution. Each call follows the code from
its first compare-exchange over the accesses through its guard to the drop of the guard;
how the events of different calls are ordered is up to the memory model.
-/
namespace SignalCrates.PipeLock
open SignalLock MemoryModel CallEvents

/-- One call of `lock` with the drop of its guard, which is `none` while it is not live. -/
structure Session where
  pc : Pc
  guard : Option Bool

def Session.step (tid : Tid) (k : Session) : Op → Option Session
  | .swap found =>
    match k.pc, k.guard with
    | .ret (.ok ()), some contended => some ⟨unlock tid contended found, none⟩
    | _, _ => none
  | .win t => (k.pc.step (.win t)).map fun pc => ⟨pc, some k.pc.contended⟩
  | o => (k.pc.step o).map fun pc => { k with pc := pc }

/-- What a call does: the operations of its code, with what an update of `waiters` has
found, and accesses to the item through its guard. -/
inductive SessionOp
  | op (o : Op) (found : BitVec 32)
  | access

def SessionOp.toOp : SessionOp → Option Op
  | .op o _ => some o
  | .access => none

def Session.next (tid : Tid) (k : Session) : SessionOp → Option Session
  | .op o _ => k.step tid o
  | .access =>
    match k.pc, k.guard with
    | .ret (.ok ()), some _ => some k
    | _, _ => none

/-- The calls of `lock`, each by its caller. -/
def code {C : Type*} (caller : C → Tid) : Code C SessionOp Session where
  start c := ⟨.lock (caller c), none⟩
  step c := Session.next (caller c)

/-- The sessions of the interleaving model: an operation of a frame. -/
theorem act_op_session {T : Type*} {capacity : ℕ} {t : Tid} {o : Op} {u : T → T}
    {s s' : Shared T} {f f' : Frame T} (h : act capacity t (.op o u) s f = some (s', f'))
    (guard : Option Bool) : ∃ k, Session.step t ⟨f.pc, guard⟩ o = some k ∧ k.pc = f'.pc := by
  obtain ⟨pc, hpc, h⟩ := Option.bind_eq_some_iff.mp h
  obtain ⟨s₁, -, he⟩ := Option.map_eq_some_iff.mp h
  cases o
  case swap => cases hf : f.pc <;> simp [hf, Pc.step] at hpc
  all_goals
    obtain ⟨-, rfl⟩ := Prod.mk.inj he
    simp only [Session.step, hpc, Option.map_some]
    exact ⟨_, rfl, rfl⟩

/-- The sessions of the interleaving model: the drop of a guard. -/
theorem act_drop_session {T : Type*} {capacity : ℕ} {t : Tid} {s s' : Shared T}
    {g : PipeLockGuard T} {gs : List (PipeLockGuard T)} {f' : Frame T}
    (h : act capacity t .drop s ⟨.client, g :: gs⟩ = some (s', f')) :
    Session.step g.tid ⟨.ret (.ok ()), some g.contended⟩ (.swap s.holderTid) =
      some ⟨f'.pc, none⟩ := by
  cases act_cases h
  rfl

/-- What the operations of a call have been when its code stands at a point. -/
def Trail (ops : List Op) : Pc → Prop
  | .lock _ => ops = []
  | .fetchAdd _ => .fetchAdd ∉ ops ∧ .fetchSub ∉ ops ∧ ∀ found, .swap found ∉ ops
  | .fence _ => .fetchAdd ∈ ops ∧ .fetchSub ∉ ops ∧ ∀ found, .swap found ∉ ops
  | .exchange _ | .read _ | .reading _ =>
    [.fetchAdd, .fence].Sublist ops ∧ .fetchSub ∉ ops ∧ ∀ found, .swap found ∉ ops
  | .fetchSub _ => .fetchAdd ∈ ops ∧ .fetchSub ∉ ops
  | .fenceUnlock => ∃ found, .swap found ∈ ops
  | .load => ∃ found, [.swap found, .fence].Sublist ops
  | .client => .write ∈ ops ∨ .load 0 ∈ ops
  | _ => True

theorem trail_lockContended {ops : List Op} {tid found : Tid}
    (h : .fetchAdd ∉ ops ∧ .fetchSub ∉ ops ∧ ∀ v, .swap v ∉ ops) :
    Trail ops (lockContended tid found) := by
  unfold lockContended
  split_ifs
  · trivial
  · exact h

theorem trail_retry {ops : List Op} {tid found : Tid}
    (h : [Op.fetchAdd, .fence].Sublist ops ∧ .fetchSub ∉ ops ∧ ∀ v, .swap v ∉ ops) :
    Trail ops (retry tid found) := by
  unfold retry
  split_ifs
  · exact ⟨h.1.subset List.mem_cons_self, h.2.1⟩
  · exact h
  · exact h

theorem trail_unlock {ops : List Op} {tid found : Tid} {contended : Bool}
    (h : .swap found ∈ ops) : Trail ops (unlock tid contended found) := by
  unfold unlock
  split_ifs
  · trivial
  · trivial
  · exact ⟨found, h⟩

/-- Another operation than these keeps what the loop relies on. -/
theorem trail_loop {ops : List Op} {o : Op}
    (h : [Op.fetchAdd, .fence].Sublist ops ∧ .fetchSub ∉ ops ∧ ∀ v, .swap v ∉ ops)
    (hsub : o ≠ .fetchSub) (hswap : ∀ v, o ≠ .swap v) :
    [Op.fetchAdd, .fence].Sublist (ops ++ [o]) ∧ .fetchSub ∉ ops ++ [o] ∧
      ∀ v, .swap v ∉ ops ++ [o] := by
  refine ⟨h.1.trans (List.sublist_append_left _ _), ?_, fun v => ?_⟩
  · simpa [h.2.1] using hsub.symm
  · simpa [h.2.2 v] using (hswap v).symm

theorem trail_pc {ops : List Op} {pc pc' : Pc} {o : Op} (h : Trail ops pc)
    (hs : pc.step o = some pc') : Trail (ops ++ [o]) pc' := by
  cases pc <;> cases o <;>
    simp only [Pc.step, reduceCtorEq, Option.ite_none_right_eq_some, Option.some.injEq] at hs
  case lock.win =>
    obtain ⟨-, rfl⟩ := hs
    trivial
  case exchange.win =>
    obtain ⟨-, rfl⟩ := hs
    obtain ⟨hadd, hsub, -⟩ := trail_loop h (o := .win _) (by rintro ⟨⟩) (by rintro _ ⟨⟩)
    exact ⟨hadd.subset List.mem_cons_self, hsub⟩
  all_goals subst hs
  case lock.lose =>
    obtain rfl : ops = [] := h
    exact trail_lockContended ⟨by simp, by simp, by simp⟩
  case fetchAdd.fetchAdd => exact ⟨by simp, by simp [h.2.1], by simp [h.2.2]⟩
  case fence.fence =>
    obtain ⟨hadd, hsub, hswap⟩ := h
    exact ⟨(List.singleton_sublist.mpr hadd).append (List.Sublist.refl [Op.fence]),
      by simp [hsub], by simp [hswap]⟩
  case exchange.lose => exact trail_retry (trail_loop h (by rintro ⟨⟩) (by rintro _ ⟨⟩))
  case fetchSub.fetchSub => trivial
  case read.enterRead => exact trail_loop h (by rintro ⟨⟩) (by rintro _ ⟨⟩)
  case reading.read => exact trail_loop h (by rintro ⟨⟩) (by rintro _ ⟨⟩)
  case reading.readEintr => exact trail_loop h (by rintro ⟨⟩) (by rintro _ ⟨⟩)
  case fenceUnlock.fence =>
    obtain ⟨found, hswap⟩ := h
    exact ⟨found, (List.singleton_sublist.mpr hswap).append (List.Sublist.refl [Op.fence])⟩
  case load.load found =>
    split_ifs with hpos
    · trivial
    · obtain rfl : found = 0 := not_not.mp fun h0 => hpos ((BitVec.pos_iff_ne_zero _).mpr h0)
      exact .inr (by simp)
  case write.write => exact .inl (by simp)
  case write.writeEintr => trivial

theorem trail_step {tid : Tid} {ops : List Op} {k k' : Session} {o : Op}
    (h : Trail ops k.pc) (hs : k.step tid o = some k') : Trail (ops ++ [o]) k'.pc := by
  obtain ⟨pc, guard⟩ := k
  cases o
  case swap found =>
    simp only [Session.step] at hs
    split at hs
    · obtain rfl := Option.some.inj hs
      exact trail_unlock (List.mem_append_right _ (List.mem_singleton_self _))
    · cases hs
  all_goals
    obtain ⟨pc', hpc, rfl⟩ := Option.map_eq_some_iff.mp hs
    exact trail_pc h hpc

/-- What the operations of the code keep holds along a call; its accesses keep the session. -/
theorem code_invariant {C : Type*} {caller : C → Tid} {c : C} {I : List Op → Session → Prop}
    (hstart : I [] ⟨.lock (caller c), none⟩)
    (hstep : ∀ ops k o k', I ops k → k.step (caller c) o = some k' → I (ops ++ [o]) k')
    {xs : List SessionOp} {k : Session} (h : (code caller).run c xs = some k) :
    I (xs.filterMap SessionOp.toOp) k := by
  refine Code.invariant (I := fun xs k => I (xs.filterMap SessionOp.toOp) k) ?_ ?_ h
  · exact hstart
  intro xs k x k' hI hs
  rw [List.filterMap_append]
  cases x with
  | op o found => exact hstep _ _ _ _ hI hs
  | access =>
    simp only [code, Session.next] at hs
    split at hs
    · obtain rfl := Option.some.inj hs
      simpa [List.filterMap_cons, SessionOp.toOp] using hI
    · cases hs

theorem trail_run {C : Type*} {caller : C → Tid} {c : C} {xs : List SessionOp} {k : Session}
    (h : (code caller).run c xs = some k) : Trail (xs.filterMap SessionOp.toOp) k.pc :=
  code_invariant (I := fun ops k => Trail ops k.pc) rfl (fun _ _ _ _ => trail_step) h

inductive Location
  | holderTid
  | waiters
  deriving DecidableEq, Repr

instance : Fintype Location := ⟨{.holderTid, .waiters}, fun l => by cases l <;> decide⟩

/-- The accesses of the source and their orderings; calls on the pipe access no atomic. -/
def Op.access (found : BitVec 32) : Op → Option (Access Location (BitVec 32))
  | .win tid => some (.update .holderTid 0 tid .acquire)
  | .lose v => some (.load .holderTid v .relaxed)
  | .fetchAdd => some (.update .waiters found (found + 1) .relaxed)
  | .fence => some (.fence .seqCst)
  | .fetchSub => some (.update .waiters found (found + -1) .relaxed)
  | .swap v => some (.update .holderTid v 0 .release)
  | .load v => some (.load .waiters v .relaxed)
  | _ => none

theorem Op.of_writes_waiters {o : Op} {found v : BitVec 32} {a : Access Location (BitVec 32)}
    (h : o.access found = some a) (hw : a.writes = some (.waiters, v)) :
    o = .fetchAdd ∨ o = .fetchSub := by
  cases o <;> simp only [Op.access, Option.some.injEq, reduceCtorEq] at h <;> subst h <;>
    simp [Access.writes] at hw ⊢

def SessionOp.toAccess : SessionOp → Option (Access Location (BitVec 32))
  | .op o found => o.access found
  | .access => none

/-- The earlier operations of a call are listed in their order. -/
structure CallExecution {C : Type*} (caller : C → Tid) (E : Type*) extends
    CallTrace (code caller) Location E where
  before_sorted : ∀ e, (before e).Pairwise sb

namespace CallExecution
variable {C E : Type*} {caller : C → Tid}

abbrev execution (K : CallExecution caller E) : Execution (Location ⊕ E) Location (BitVec 32) :=
  K.toCallTrace.execution SessionOp.toAccess

/-- The event is this operation of the code. -/
def Makes (K : CallExecution caller E) (e : E) (o : Op) : Prop := (K.op e).toOp = some o

/-- The operations of the code that the call of the event has made before it. -/
def made (K : CallExecution caller E) (e : E) : List Op := (K.ops e).filterMap SessionOp.toOp

variable {K : CallExecution caller E}

theorem Makes.unique {e : E} {o o' : Op} (h : K.Makes e o) (h' : K.Makes e o') : o = o' :=
  Option.some.inj (h.symm.trans h')

theorem Makes.exists_op {e : E} {o : Op} (h : K.Makes e o) : ∃ found, K.op e = .op o found := by
  unfold Makes at h
  cases hx : K.op e with
  | op o' found =>
    rw [hx] at h
    exact ⟨found, congrArg (SessionOp.op · found) (Option.some.inj h)⟩
  | access =>
    rw [hx] at h
    cases h

/-- The point from which an operation of the code is made. -/
theorem Makes.exists_at {e : E} {o : Op} (h : K.Makes e o) :
    ∃ k k', K.At e k ∧ k.step (caller (K.call e)) o = some k' := by
  obtain ⟨found, hop⟩ := h.exists_op
  obtain ⟨k, k', hk, hs⟩ := K.toCallTrace.exists_at e
  rw [hop] at hs
  exact ⟨k, k', hk, hs⟩

theorem Makes.exists_access {e : E} {o : Op} (h : K.Makes e o) :
    ∃ found, K.execution.access (.inr e) = o.access found := by
  obtain ⟨found, hop⟩ := h.exists_op
  exact ⟨found, congrArg SessionOp.toAccess hop⟩

theorem trail_at {e : E} {k : Session} (h : K.At e k) : Trail (K.made e) k.pc := trail_run h

theorem mem_made_iff {e : E} {o : Op} :
    o ∈ K.made e ↔ ∃ d, K.Makes d o ∧ K.call d = K.call e ∧ K.sb d e := by
  rw [made, List.mem_filterMap]
  constructor
  · rintro ⟨x, hx, ho⟩
    obtain ⟨d, rfl, hd⟩ := CallTrace.mem_ops_iff.mp hx
    exact ⟨d, ho, hd⟩
  · rintro ⟨d, ho, hc, hsb⟩
    exact ⟨K.op d, CallTrace.mem_ops_of_sb hc hsb, ho⟩

/-- A call makes at most one operation that only a point without it in its past allows. -/
theorem unique_of_trail {o : Op} (hnew : ∀ e, K.Makes e o → o ∉ K.made e) {d e : E}
    (hd : K.Makes d o) (he : K.Makes e o) (hc : K.call d = K.call e) : d = e := by
  rcases K.sb_total d e hc with h | h | h
  · exact h
  · exact absurd (mem_made_iff.mpr ⟨d, hd, hc, h⟩) (hnew e he)
  · exact absurd (mem_made_iff.mpr ⟨e, he, hc.symm, h⟩) (hnew d hd)

theorem not_mem_of_fetchAdd {e : E} (he : K.Makes e .fetchAdd) :
    .fetchAdd ∉ K.made e := by
  obtain ⟨⟨pc, guard⟩, k', hk, hs⟩ := he.exists_at
  have htrail := trail_at hk
  cases pc <;> simp [Session.step, Pc.step] at hs
  exact htrail.1

theorem of_fetchSub {e : E} (he : K.Makes e .fetchSub) :
    .fetchAdd ∈ K.made e ∧ .fetchSub ∉ K.made e := by
  obtain ⟨⟨pc, guard⟩, k', hk, hs⟩ := he.exists_at
  have htrail := trail_at hk
  cases pc <;> simp [Session.step, Pc.step] at hs
  exact htrail

theorem not_swapped_of_win {e : E} {tid : Tid} (he : K.Makes e (.win tid)) (found : Tid) :
    .swap found ∉ K.made e := by
  obtain ⟨⟨pc, guard⟩, k', hk, hs⟩ := he.exists_at
  have htrail := trail_at hk
  cases pc <;> simp [Session.step, Pc.step] at hs
  · have hempty : K.made e = [] := htrail
    simp [hempty]
  · exact htrail.2.2 found

/-- The load of `waiters` comes after the swap and the fence of its unlock. -/
theorem of_load {e : E} {v : BitVec 32} (he : K.Makes e (.load v)) :
    ∃ found, [Op.swap found, .fence].Sublist (K.made e) := by
  obtain ⟨⟨pc, guard⟩, k', hk, hs⟩ := he.exists_at
  have htrail := trail_at hk
  cases pc <;> simp [Session.step, Pc.step] at hs
  exact htrail

theorem fence_iff {e : E} : K.execution.Fence (.inr e) ↔ K.Makes e .fence := by
  unfold Execution.Fence Makes
  change (K.op e).toAccess = _ ↔ _
  cases K.op e with
  | op o found => cases o <;> simp [SessionOp.toAccess, SessionOp.toOp, Op.access]
  | access => simp [SessionOp.toAccess, SessionOp.toOp]

theorem writes_win {e : E} {tid : Tid} (he : K.Makes e (.win tid)) :
    K.execution.Writes (.inr e) .holderTid tid := by
  obtain ⟨found, ha⟩ := he.exists_access
  exact ⟨_, ha, rfl⟩

theorem writes_swap {e : E} {found : Tid} (he : K.Makes e (.swap found)) :
    K.execution.Writes (.inr e) .holderTid 0 := by
  obtain ⟨x, ha⟩ := he.exists_access
  exact ⟨_, ha, rfl⟩

theorem reads_load {e : E} {v : BitVec 32} (he : K.Makes e (.load v)) :
    K.execution.Reads (.inr e) .waiters v := by
  obtain ⟨found, ha⟩ := he.exists_access
  exact ⟨_, ha, rfl⟩

/-- What an operation adds to `waiters`. -/
def delta : SessionOp → BitVec 32
  | .op .fetchAdd _ => 1
  | .op .fetchSub _ => -1
  | _ => 0

theorem delta_fetchAdd {e : E} (he : K.Makes e .fetchAdd) : delta (K.op e) = 1 := by
  obtain ⟨found, hop⟩ := he.exists_op
  rw [hop]
  rfl

theorem delta_fetchSub {e : E} (he : K.Makes e .fetchSub) : delta (K.op e) = -1 := by
  obtain ⟨found, hop⟩ := he.exists_op
  rw [hop]
  rfl

theorem access_update {e : E} (he : K.Makes e .fetchAdd ∨ K.Makes e .fetchSub) :
    ∃ found, K.execution.access (.inr e) =
      some (.update .waiters found (found + delta (K.op e)) .relaxed) := by
  rcases he with he | he
  · obtain ⟨found, ha⟩ := he.exists_access
    exact ⟨found, by rw [ha, delta_fetchAdd he]; rfl⟩
  · obtain ⟨found, ha⟩ := he.exists_access
    exact ⟨found, by rw [ha, delta_fetchSub he]; rfl⟩

theorem writes_update {e : E} (he : K.Makes e .fetchAdd ∨ K.Makes e .fetchSub) :
    ∃ v, K.execution.Writes (.inr e) .waiters v := by
  obtain ⟨found, ha⟩ := access_update he
  exact ⟨_, _, ha, rfl⟩

theorem writes_waiters {a : Location ⊕ E} {v : BitVec 32}
    (h : K.execution.Writes a .waiters v) :
    a = .inl .waiters ∨ ∃ e, a = .inr e ∧ (K.Makes e .fetchAdd ∨ K.Makes e .fetchSub) := by
  obtain ⟨x, hx, hw⟩ := h
  cases a with
  | inl l =>
    obtain rfl := Option.some.inj hx
    simp only [Access.writes, Option.some.injEq, Prod.mk.injEq] at hw
    exact .inl (congrArg Sum.inl hw.1)
  | inr e =>
    refine .inr ⟨e, rfl, ?_⟩
    change (K.op e).toAccess = some x at hx
    cases ho : K.op e with
    | op o found =>
      rw [ho] at hx
      refine (Op.of_writes_waiters hx hw).imp ?_ ?_
      · exact fun h => (congrArg SessionOp.toOp ho).trans (congrArg some h)
      · exact fun h => (congrArg SessionOp.toOp ho).trans (congrArg some h)
    | access =>
      rw [ho] at hx
      cases hx

section Counting
open scoped Classical

theorem fetchAdd_unique {d e : E} (hd : K.Makes d .fetchAdd) (he : K.Makes e .fetchAdd)
    (hc : K.call d = K.call e) : d = e :=
  unique_of_trail (fun _ => not_mem_of_fetchAdd) hd he hc

theorem fetchSub_unique {d e : E} (hd : K.Makes d .fetchSub) (he : K.Makes e .fetchSub)
    (hc : K.call d = K.call e) : d = e :=
  unique_of_trail (fun _ he => (of_fetchSub he).2) hd he hc

variable [Fintype C]

theorem finite_updates (K : CallExecution caller E) :
    {e | K.Makes e .fetchAdd ∨ K.Makes e .fetchSub}.Finite := by
  refine Set.Finite.union (s := {e | K.Makes e .fetchAdd}) (t := {e | K.Makes e .fetchSub}) ?_ ?_
  · exact Set.Finite.of_injOn (f := K.call) (Set.mapsTo_univ _ _)
      (fun _ hd _ he => fetchAdd_unique hd he) Set.finite_univ
  · exact Set.Finite.of_injOn (f := K.call) (Set.mapsTo_univ _ _)
      (fun _ hd _ he => fetchSub_unique hd he) Set.finite_univ

/-- The updates of `waiters`. -/
noncomputable def updates (K : CallExecution caller E) : Finset E := K.finite_updates.toFinset

theorem mem_updates {e : E} : e ∈ K.updates ↔ K.Makes e .fetchAdd ∨ K.Makes e .fetchSub := by
  simp [updates]

/-- The updates up to the modification `m` of `waiters`. -/
noncomputable def updatesTo (K : CallExecution caller E) (m : Location ⊕ E) : Finset E :=
  K.updates.filter fun e => .inr e = m ∨ K.mo (.inr e) m

theorem mem_updatesTo {m : Location ⊕ E} {e : E} :
    e ∈ K.updatesTo m ↔ e ∈ K.updates ∧ (.inr e = m ∨ K.mo (.inr e) m) := Finset.mem_filter

/-- A call is counted by `m` from its `fetch_add` to its `fetch_sub`. -/
def Counted (K : CallExecution caller E) (m : Location ⊕ E) (c : C) : Prop :=
  ∃ e ∈ K.updatesTo m, K.call e = c ∧ ∀ d ∈ K.updatesTo m, K.call d = c → K.Makes d .fetchAdd

theorem value_eq_sum (hK : K.execution.Consistent) {m : Location ⊕ E} {v : BitVec 32}
    (hm : K.execution.Writes m .waiters v) : v = ∑ e ∈ K.updatesTo m, delta (K.op e) := by
  have hinit : K.execution.Writes (.inl .waiters) .waiters 0 := ⟨_, rfl, rfl⟩
  have hvalue := hK.counter_value (Sum.elim (fun _ => 0) fun e => delta (K.op e))
    (K.updates.map ⟨Sum.inr, Sum.inr_injective⟩) hinit (by simp) ?_ ?_ ?_ hm
  · rw [hvalue, zero_add]
    have hupTo : K.execution.upTo (K.updates.map ⟨Sum.inr, Sum.inr_injective⟩) m =
        (K.updatesTo m).map ⟨Sum.inr, Sum.inr_injective⟩ := by
      ext e
      rw [Execution.mem_upTo]
      cases e <;> simp [updatesTo, CallTrace.execution]
    rw [hupTo, Finset.sum_map]
    rfl
  · intro e he
    obtain ⟨d, hd, rfl⟩ := Finset.mem_map.mp he
    obtain ⟨v, hv⟩ := writes_update (mem_updates.mp hd)
    exact hK.mo_of_happensBefore hinit hv (.single (.inr (.inl (K.init_first _ _))))
  · intro e v he
    refine (writes_waiters he).imp_right ?_
    rintro ⟨d, rfl, hd⟩
    exact Finset.mem_map_of_mem _ (mem_updates.mpr hd)
  · intro e he
    obtain ⟨d, hd, rfl⟩ := Finset.mem_map.mp he
    obtain ⟨found, ha⟩ := access_update (mem_updates.mp hd)
    exact ⟨found, _, ha⟩

/-- The `fetch_add` of a call comes before its `fetch_sub` in modification order. -/
theorem fetchAdd_mem_updatesTo (hK : K.execution.Consistent) {m : Location ⊕ E} {v : BitVec 32}
    {d : E} (hm : K.execution.Writes m .waiters v) (hd : d ∈ K.updatesTo m)
    (hsub : K.Makes d .fetchSub) :
    ∃ a ∈ K.updatesTo m, K.Makes a .fetchAdd ∧ K.call a = K.call d := by
  obtain ⟨a, ha, hc, hsb⟩ := mem_made_iff.mp (of_fetchSub hsub).1
  have hda := (mem_updatesTo.mp hd).2
  obtain ⟨va, hva⟩ := writes_update (.inl ha)
  obtain ⟨vd, hvd⟩ := writes_update (.inr hsub)
  have hmo := hK.mo_of_happensBefore hva hvd (Execution.happensBefore_of_sb hsb)
  refine ⟨a, mem_updatesTo.mpr ⟨mem_updates.mpr (.inl ha), .inr ?_⟩, ha, hc⟩
  rcases hda with rfl | hdm
  · exact hmo
  · exact hK.mo_trans _ _ _ hmo hdm

/-- The updates of one call up to `m` add up to 1 if `m` counts the call and to 0 else. -/
theorem sum_call (hK : K.execution.Consistent) {m : Location ⊕ E} {v : BitVec 32} (c : C)
    (hm : K.execution.Writes m .waiters v) :
    ∑ e ∈ K.updatesTo m with K.call e = c, delta (K.op e) =
      ((if K.Counted m c then 1 else 0 : ℕ) : BitVec 32) := by
  have hop : ∀ e ∈ K.updatesTo m, K.Makes e .fetchAdd ∨ K.Makes e .fetchSub :=
    fun e he => mem_updates.mp (mem_updatesTo.mp he).1
  by_cases ha : ∃ a ∈ K.updatesTo m, K.Makes a .fetchAdd ∧ K.call a = c
  · obtain ⟨a, ha, hadd, rfl⟩ := ha
    by_cases hd : ∃ d ∈ K.updatesTo m, K.Makes d .fetchSub ∧ K.call d = K.call a
    · obtain ⟨d, hd, hsub, hcall⟩ := hd
      have hset : (K.updatesTo m).filter (fun e => K.call e = K.call a) = {a, d} := by
        ext e
        simp only [Finset.mem_filter, Finset.mem_insert, Finset.mem_singleton]
        constructor
        · rintro ⟨he, hc⟩
          rcases hop e he with ho | ho
          · exact .inl (fetchAdd_unique ho hadd hc)
          · exact .inr (fetchSub_unique ho hsub (hc.trans hcall.symm))
        · rintro (rfl | rfl)
          · exact ⟨ha, rfl⟩
          · exact ⟨hd, hcall⟩
      have hne : a ≠ d := by
        rintro rfl
        cases hadd.unique hsub
      have hnot : ¬ K.Counted m (K.call a) := by
        rintro ⟨e, -, -, hall⟩
        cases (hall d hd hcall).unique hsub
      rw [hset, Finset.sum_pair hne, delta_fetchAdd hadd, delta_fetchSub hsub, if_neg hnot]
      rfl
    · have hset : (K.updatesTo m).filter (fun e => K.call e = K.call a) = {a} := by
        ext e
        simp only [Finset.mem_filter, Finset.mem_singleton]
        constructor
        · rintro ⟨he, hc⟩
          rcases hop e he with ho | ho
          · exact fetchAdd_unique ho hadd hc
          · exact absurd ⟨e, he, ho, hc⟩ hd
        · rintro rfl
          exact ⟨ha, rfl⟩
      have hcounted : K.Counted m (K.call a) := by
        refine ⟨a, ha, rfl, fun e he hc => (hop e he).resolve_right fun ho => ?_⟩
        exact hd ⟨e, he, ho, hc⟩
      rw [hset, Finset.sum_singleton, delta_fetchAdd hadd, if_pos hcounted]
      rfl
  · have hset : (K.updatesTo m).filter (fun e => K.call e = c) = ∅ := by
      refine Finset.filter_eq_empty_iff.mpr fun e he hc => ?_
      rcases hop e he with ho | ho
      · exact ha ⟨e, he, ho, hc⟩
      · obtain ⟨a, ham, hadd, hcall⟩ := fetchAdd_mem_updatesTo hK hm he ho
        exact ha ⟨a, ham, hadd, hcall.trans hc⟩
    have hnot : ¬ K.Counted m c := by
      rintro ⟨e, he, hc, hall⟩
      exact ha ⟨e, he, hall e he hc, hc⟩
    rw [hset, Finset.sum_empty, if_neg hnot]
    rfl

/-- `m` stores how many calls it counts. -/
theorem value_eq_card (hK : K.execution.Consistent) {m : Location ⊕ E} {v : BitVec 32}
    (hm : K.execution.Writes m .waiters v) :
    v = (({c | K.Counted m c} : Finset C).card : BitVec 32) := by
  rw [value_eq_sum hK hm, ← Finset.sum_fiberwise (K.updatesTo m) K.call, Finset.card_filter,
    Nat.cast_sum]
  exact Finset.sum_congr rfl fun c _ => sum_call hK c hm

/-- While a call is counted and there are fewer than `2 ^ 32` calls, `waiters` is positive. -/
theorem value_pos (hK : K.execution.Consistent) (hfew : Fintype.card C < 2 ^ 32)
    {m : Location ⊕ E} {v : BitVec 32} {c : C} (hm : K.execution.Writes m .waiters v)
    (hc : K.Counted m c) : 0 < v := by
  have hpos : 0 < ({c | K.Counted m c} : Finset C).card :=
    Finset.card_pos.mpr ⟨c, by simpa using hc⟩
  have hle : ({c | K.Counted m c} : Finset C).card ≤ Fintype.card C := Finset.card_le_univ _
  refine (BitVec.pos_iff_ne_zero v).mpr fun h0 => ?_
  have hn := congrArg BitVec.toNat ((value_eq_card hK hm).symm.trans h0)
  rw [BitVec.natCast_eq_ofNat, BitVec.toNat_ofNat, Nat.mod_eq_of_lt (by omega)] at hn
  change _ = 0 at hn
  omega

end Counting

/-- The failed exchange reads what the unlock overwrites. -/
theorem exchange_before_swap (hK : K.execution.Consistent) {B X Y : E} {t found v : Tid}
    (hlose : K.Makes B (.lose v)) (hwin : K.Makes X (.win t)) (hrf : K.rf (.inr X) (.inr B))
    (hY : K.Makes Y (.swap found)) (hc : K.call Y = K.call X) :
    K.execution.CoherenceOrdered (.inr B) (.inr Y) := by
  have hsb : K.sb X Y := by
    rcases K.sb_total X Y hc.symm with rfl | h | h
    · cases hwin.unique hY
    · exact h
    · exact absurd (mem_made_iff.mpr ⟨Y, hY, hc, h⟩) (not_swapped_of_win hwin found)
  have hmo : K.mo (.inr X) (.inr Y) :=
    hK.mo_of_happensBefore (writes_win hwin) (writes_swap hY) (Execution.happensBefore_of_sb hsb)
  refine .overwritten hrf hmo ?_
  rintro ⟨⟩
  cases hlose.unique hY

/-- The load of an unlock sees the call of a locker that failed against its section. -/
theorem load_pos [Fintype C] (hK : K.execution.Consistent) (hfew : Fintype.card C < 2 ^ 32)
    {B X Z : E} {k : Session} {tid t found : Tid} {v : BitVec 32} {m : Location ⊕ E}
    (hB : K.At B k) (hpc : k.pc = .exchange tid) (hlose : K.Makes B (.lose found))
    (hwin : K.Makes X (.win t)) (hrf : K.rf (.inr X) (.inr B)) (hZ : K.Makes Z (.load v))
    (hcall : K.call Z = K.call X) (hm : K.rf m (.inr Z))
    (hsub : ∀ d, K.Makes d .fetchSub → K.call d = K.call B → K.mo m (.inr d)) : 0 < v := by
  have htrail := trail_at hB
  rw [hpc] at htrail
  obtain ⟨A, F₁, hA, hF₁, hcA, -, hAF, hFB⟩ :=
    CallTrace.exists_of_sublist (K.before_sorted B) htrail.1
  obtain ⟨swapped, hswap⟩ := of_load hZ
  obtain ⟨Y, F₂, hY, hF₂, hcY, -, hYF, hFZ⟩ :=
    CallTrace.exists_of_sublist (K.before_sorted Z) hswap
  have hBY := exchange_before_swap hK hlose hwin hrf hY (hcY.trans hcall)
  have hnot : ¬ K.execution.CoherenceOrdered (.inr Z) (.inr A) :=
    hK.fence_handshake (b := .inr B) (y := .inr Y) (fence_iff.mpr hF₁) (fence_iff.mpr hF₂) hAF
      hFB hYF hFZ hBY
  obtain ⟨l, v', hw, hr⟩ := hK.rf_value m (.inr Z) hm
  obtain ⟨rfl, rfl⟩ := Execution.Reads.unique hr (reads_load hZ)
  obtain ⟨vA, hvA⟩ := writes_update (.inl hA)
  have hAm : .inr A = m ∨ K.mo (.inr A) m := by
    rcases hK.mo_total (.inr A) m _ _ _ hvA hw with h | h | h
    · exact .inl h
    · exact .inr h
    · refine absurd (.overwritten hm h ?_) hnot
      rintro ⟨⟩
      cases hZ.unique hA
  refine value_pos hK hfew (c := K.call B) hw ⟨A, ?_, hcA, fun d hd hc => ?_⟩
  · exact mem_updatesTo.mpr ⟨mem_updates.mpr (.inl hA), hAm⟩
  · obtain ⟨hd, hdm⟩ := mem_updatesTo.mp hd
    refine (mem_updates.mp hd).resolve_right fun ho => ?_
    have hmd := hsub d ho hc
    rcases hdm with rfl | hdm
    · exact hK.mo_irrefl _ hmd
    · exact hK.mo_irrefl _ (hK.mo_trans _ _ _ hmd hdm)

/-- The fences rule out a missed waiter: the unlock of the section that made a locker's
exchange fail writes, as long as the locker is registered. -/
theorem fences_rule_out_missed_waiter [Fintype C] (hK : K.execution.Consistent)
    (hfew : Fintype.card C < 2 ^ 32) {B X : E} {k : Session} {tid t found : Tid}
    (hB : K.At B k) (hpc : k.pc = .exchange tid) (hlose : K.Makes B (.lose found))
    (hwin : K.Makes X (.win t)) (hrf : K.rf (.inr X) (.inr B)) :
    (∀ Y v k', K.call Y = K.call X → K.Makes Y (.swap v) → K.At Y k' → k'.guard = some true ∨
      ∀ Z v m, K.call Z = K.call X → K.Makes Z (.load v) → K.rf m (.inr Z) →
        (∀ d, K.Makes d .fetchSub → K.call d = K.call B → K.mo m (.inr d)) → 0 < v) ∧
    ((∀ d, K.call d = K.call B → ¬ K.Makes d .fetchSub) → ∀ Z k', K.call Z = K.call X →
      (code caller).run (K.call Z) ((K.before Z ++ [Z]).map K.op) = some k' →
      k'.pc = .client → ∃ W, K.call W = K.call X ∧ K.Makes W .write) := by
  constructor
  · intro Y v k' _ _ _
    exact .inr fun Z v m hc hZ hm hsub => load_pos hK hfew hB hpc hlose hwin hrf hZ hc hm hsub
  · intro hnone Z k' hc hrun hclient
    have htrail := trail_run hrun
    rw [hclient, Trail, List.mem_filterMap, List.mem_filterMap] at htrail
    have hcall : ∀ x ∈ (K.before Z ++ [Z]).map K.op, ∃ d, K.op d = x ∧ K.call d = K.call X := by
      intro x hx
      obtain ⟨d, hd, rfl⟩ := List.mem_map.mp hx
      refine ⟨d, rfl, ?_⟩
      rcases List.mem_append.mp hd with hd | hd
      · exact ((K.mem_before d Z).mp hd).1.trans hc
      · rw [List.mem_singleton.mp hd, hc]
    rcases htrail with ⟨x, hx, hop⟩ | ⟨x, hx, hop⟩
    · obtain ⟨W, rfl, hW⟩ := hcall x hx
      exact ⟨W, hW, hop⟩
    · obtain ⟨Z', rfl, hZ'⟩ := hcall x hx
      have hload : K.Makes Z' (.load 0) := hop
      obtain ⟨m, hm⟩ := hK.rf_total (.inr Z') _ _ (reads_load hload)
      have hpos := load_pos hK hfew hB hpc hlose hwin hrf hload hZ' hm
        fun d ho hd => absurd ho (hnone d hd)
      exact absurd hpos (by decide)

end CallExecution

/-- Call 0 of thread 1 holds the lock while call 1 of thread 2 registers and blocks; the
unlock of call 0 then sees the registration, and call 1 has its section with the byte. -/
def blocked : List (Fin 2 × SessionOp) :=
  [(0, .op (.win 1) 0), (1, .op (.lose 1) 0), (1, .op .fetchAdd 0), (1, .op .fence 0),
    (1, .op (.lose 1) 0), (1, .op .enterRead 0), (0, .access), (0, .op (.swap 1) 0),
    (0, .op .fence 0), (0, .op (.load 1) 0), (0, .op .write 0), (1, .op .read 0),
    (1, .op (.win 2) 0), (1, .op .fetchSub 1), (1, .access), (1, .op (.swap 2) 0),
    (1, .op .write 0)]

def blockedCaller (c : Fin 2) : Tid := if c = 0 then 1 else 2

def Location.index : Location → Fin 2
  | .holderTid => ⟨0, Nat.two_pos⟩
  | .waiters => ⟨1, Nat.one_lt_two⟩

def blockedExecution : CallEvents.CallExecution (code blockedCaller) Location (Fin 17) :=
  .ofList (code blockedCaller) SessionOp.toAccess Location.index blocked (by decide)

/-- The write that an event of `blocked` reads. -/
def blockedSource : Fin 17 → Location ⊕ Fin 17 :=
  ![.inl .holderTid, .inr 0, .inl .waiters, .inl .waiters, .inr 0, .inl .waiters, .inl .waiters,
    .inr 0, .inl .waiters, .inr 2, .inl .waiters, .inl .waiters, .inr 7, .inr 2, .inl .waiters,
    .inr 12, .inl .waiters]

def blockedAccess : Location ⊕ Fin 17 → Option (Access Location (BitVec 32)) :=
  CallEvents.CallExecution.accesses (fun e : Fin 17 => (blocked.get e).2) SessionOp.toAccess

def blockedPos : Location ⊕ Fin 17 → ℕ := CallEvents.CallExecution.listPos Location.index

theorem blocked_lastWrite : ∀ (e : Fin 17) (l : Location),
    (Execution.wasRead blockedAccess (.inr e)).map Prod.fst = some l →
      Execution.LastWrite blockedAccess blockedPos l (blockedSource e) (.inr e) := by decide

theorem blocked_consistent : (blockedExecution.execution SessionOp.toAccess).Consistent := by
  change (CallEvents.CallExecution.listExecution SessionOp.toAccess Location.index
    blocked).Consistent
  refine CallEvents.CallExecution.listExecution_consistent
    (by rintro ⟨⟩ ⟨⟩ h <;> cases h <;> rfl) blockedSource ?_
  intro (e : Fin 17) lv hlv
  refine ⟨?_, blocked_lastWrite e lv.1 (congrArg (Option.map Prod.fst) hlv)⟩
  fin_cases e <;> first | exact hlv | cases hlv

def blockedCalls : CallExecution blockedCaller (Fin 17) where
  toCallTrace := blockedExecution.toCallTrace
  before_sorted := CallEvents.CallExecution.listBefore_sorted blocked

namespace CallExecution

theorem fences_rule_out_missed_waiter_blocked :
    blockedCalls.Makes 4 (.lose 1) ∧ blockedCalls.rf (.inr 0) (.inr 4) ∧
      ∀ Z v m, blockedCalls.call Z = 0 → blockedCalls.Makes Z (.load v) →
        blockedCalls.rf m (.inr Z) → 0 < v := by
  have hat : blockedCalls.At 4 ⟨.exchange 2, none⟩ := rfl
  have hrf : blockedCalls.rf (.inr 0) (.inr 4) := 
    ⟨(.holderTid, 1), rfl, rfl, blocked_lastWrite 4 .holderTid rfl⟩
  have h := fences_rule_out_missed_waiter (K := blockedCalls) blocked_consistent (by simp) hat rfl
    (show blockedCalls.Makes 4 (.lose 1) from rfl) (show blockedCalls.Makes 0 (.win 1) from rfl) hrf
  refine ⟨rfl, hrf, fun Z v m hc hZ hm => ?_⟩
  have hswap : blockedCalls.At 7 ⟨.ret (.ok ()), some false⟩ := rfl
  rcases h.1 7 1 _ rfl rfl hswap with hfalse | hload
  · exact absurd hfalse (by decide)
  · -- the waiter is still registered at the load: its `fetch_sub` comes later
    have hZ9 : Z = 9 := by
      fin_cases Z <;> first | rfl | cases hZ
    subst hZ9
    have hrf9 : blockedCalls.rf (.inr 2) (.inr 9) :=
      ⟨(.waiters, 1), rfl, rfl, blocked_lastWrite 9 .waiters rfl⟩
    obtain rfl := blocked_consistent.rf_unique _ _ _ hm hrf9
    refine hload 9 v _ hc hZ hm fun d hd _ => ?_
    have hd13 : d = 13 := by
      fin_cases d <;> first | rfl | cases hd
    subst hd13
    exact ⟨by decide, .waiters, rfl, rfl⟩

end CallExecution

end SignalCrates.PipeLock
