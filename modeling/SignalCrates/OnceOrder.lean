import SignalCrates.StaticRoot
import SignalCrates.CallEvents

/-!
# The memory orders of StaticRoot

The calls of `get_or_init` and `get` as events of a C++20 execution. The mutex of `TryOnce`
is a location that is taken with acquire and freed with release. The second load of `init`
is relaxed; the mutex orders it after every store that it can read from.
-/
namespace SignalCrates.StaticRoot
open InterruptStack MemoryModel CallEvents

variable {V E : Type*}

/-- The operations of a call, with the flags that its loads of `init` returned. The last
one is any use of the reference that the call returned. -/
inductive Op (V E : Type*)
  | load (init : Bool)
  | lock
  | loadLocked (init : Bool)
  | new (res : Except E V)
  | write
  | written
  | store
  | unlock
  | isCompleted (found : Option (Slot V))
  | deref

/-- The code between two operations of one call. -/
def Pc.follow : Pc V E → Op V E → Option (Pc V E)
  | .load, .load init => some (if init then .unwrap else .lock)
  | .lock, .lock => some .loadLocked
  | .loadLocked, .loadLocked init => some (if init then .unlock (.ok ()) else .new)
  | .new, .new (.ok v) => some (.write v)
  | .new, .new (.error e) => some (.unlock (.error e))
  | .write v, .write => some (.writing v)
  | .writing _, .written => some .store
  | .store, .store => some (.unlock (.ok ()))
  | .unlock (.ok ()), .unlock => some .unwrap
  | .unlock (.error e), .unlock => some (.returned (.error e))
  | .unwrap, .isCompleted (some r) => some (.returned (.ok r))
  | .unwrap, .isCompleted none => some .panicked
  | .isCompleted, .isCompleted found => some (.got found)
  | .returned (.ok r), .deref => some (.returned (.ok r))
  | .got (some r), .deref => some (.got (some r))
  | _, _ => none

/-- The steps of the interleaving model are operations of a call. -/
theorem step_follow {s s' : Shared V E} {pc pc' : Pc V E} (h : step s pc = some (s', pc')) :
    ∃ o, pc.follow o = some pc' := by
  cases pc <;> simp only [step, reduceCtorEq, Option.some.injEq, Prod.mk.injEq] at h
  case load => obtain ⟨-, rfl⟩ := h; exact ⟨.load s.init, rfl⟩
  case lock =>
    split_ifs at h
    obtain ⟨-, rfl⟩ := Prod.mk.inj (Option.some.inj h)
    exact ⟨.lock, rfl⟩
  case loadLocked => obtain ⟨-, rfl⟩ := h; exact ⟨.loadLocked s.init, rfl⟩
  case write v => obtain ⟨-, rfl⟩ := h; exact ⟨.write, rfl⟩
  case writing v => obtain ⟨-, rfl⟩ := h; exact ⟨.written, rfl⟩
  case store => obtain ⟨-, rfl⟩ := h; exact ⟨.store, rfl⟩
  case unlock res =>
    cases res <;> simp only [Option.some.injEq, Prod.mk.injEq] at h <;> obtain ⟨-, rfl⟩ := h
    · exact ⟨.unlock, rfl⟩
    · exact ⟨.unlock, rfl⟩
  case unwrap =>
    cases hg : s.get <;> simp only [hg, Option.some.injEq, Prod.mk.injEq] at h <;>
      obtain ⟨-, rfl⟩ := h
    · exact ⟨.isCompleted none, rfl⟩
    · exact ⟨.isCompleted (some _), rfl⟩
  case isCompleted => obtain ⟨-, rfl⟩ := h; exact ⟨.isCompleted s.get, rfl⟩

/-- The calls of `get_or_init` and of `get`. -/
def code {C : Type*} (entry : C → Pc V E) : Code C (Op V E) (Pc V E) :=
  ⟨entry, fun _ => Pc.follow⟩

/-- Inside the mutex: it has been taken and not yet freed. -/
def Inside (ops : List (Op V E)) : Prop := .lock ∈ ops ∧ .unlock ∉ ops

/-- The slot has not been touched. -/
def Untouched (ops : List (Op V E)) : Prop := .write ∉ ops ∧ .written ∉ ops ∧ .store ∉ ops

/-- The call has seen `init` set, or has set it. -/
def Done (ops : List (Op V E)) : Prop :=
  .load true ∈ ops ∨ .loadLocked true ∈ ops ∨ .store ∈ ops

/-- What the operations of a call have been when its code stands at a point. -/
def Trail (ops : List (Op V E)) : Pc V E → Prop
  | .load => ops = []
  | .isCompleted => ops = []
  | .lock => .lock ∉ ops ∧ .unlock ∉ ops ∧ Untouched ops
  | .loadLocked => Inside ops ∧ Untouched ops
  | .new => Inside ops ∧ Untouched ops ∧ .loadLocked false ∈ ops
  | .write _ => Inside ops ∧ Untouched ops ∧ .loadLocked false ∈ ops
  | .writing _ => Inside ops ∧ .written ∉ ops ∧ .store ∉ ops ∧ .loadLocked false ∈ ops ∧
      .write ∈ ops
  | .store => Inside ops ∧ .store ∉ ops ∧ .write ∈ ops ∧ .written ∈ ops
  | .unlock (.ok ()) => Inside ops ∧ Done ops ∧ (.write ∈ ops → .store ∈ ops)
  | .unlock (.error _) => Inside ops ∧ .write ∉ ops
  | .unwrap => Done ops
  | .returned (.ok r) => .isCompleted (some r) ∈ ops
  | .got (some r) => .isCompleted (some r) ∈ ops
  | _ => True

theorem Inside.snoc {ops : List (Op V E)} {o : Op V E} (h : Inside ops) (ho : o ≠ .unlock) :
    Inside (ops ++ [o]) :=
  ⟨List.mem_append_left _ h.1, by simpa [h.2] using ho.symm⟩

theorem Untouched.snoc {ops : List (Op V E)} {o : Op V E} (h : Untouched ops)
    (ho : o ≠ .write ∧ o ≠ .written ∧ o ≠ .store) : Untouched (ops ++ [o]) :=
  ⟨by simpa [h.1] using ho.1.symm, by simpa [h.2.1] using ho.2.1.symm,
    by simpa [h.2.2] using ho.2.2.symm⟩

theorem Done.snoc {ops : List (Op V E)} (h : Done ops) (o : Op V E) : Done (ops ++ [o]) := by
  have hmem {p : Op V E} (hp : p ∈ ops) : p ∈ ops ++ [o] := List.mem_append_left _ hp
  exact h.imp hmem fun h => h.imp hmem hmem

theorem trail_step {ops : List (Op V E)} {pc pc' : Pc V E} {o : Op V E} (h : Trail ops pc)
    (hs : pc.follow o = some pc') : Trail (ops ++ [o]) pc' := by
  have hmem {p : Op V E} (hp : p ∈ ops) : p ∈ ops ++ [o] := List.mem_append_left _ hp
  cases pc <;> cases o <;> simp only [Pc.follow, reduceCtorEq, Option.some.injEq] at hs
  case load.load init =>
    obtain rfl : ops = [] := h
    subst hs
    cases init <;> simp [Trail, Done, Untouched]
  case lock.lock =>
    subst hs
    exact ⟨⟨by simp, by simp [h.2.1]⟩, h.2.2.snoc (by simp)⟩
  case loadLocked.loadLocked init =>
    subst hs
    cases init
    · exact ⟨h.1.snoc (by rintro ⟨⟩), h.2.snoc (by simp), by simp⟩
    · exact ⟨h.1.snoc (by rintro ⟨⟩), .inr (.inl (by simp)), by simp [h.2.1]⟩
  case new.new res =>
    obtain ⟨hin, huntouched, hload⟩ := h
    cases res <;> simp only [Option.some.injEq] at hs <;> subst hs
    · exact ⟨hin.snoc (by rintro ⟨⟩), by simp [huntouched.1]⟩
    · exact ⟨hin.snoc (by rintro ⟨⟩), huntouched.snoc (by simp), hmem hload⟩
  case write.write =>
    obtain ⟨hin, ⟨-, hwritten, hstore⟩, hload⟩ := h
    subst hs
    exact ⟨hin.snoc (by rintro ⟨⟩), by simp [hwritten], by simp [hstore], hmem hload, by simp⟩
  case writing.written =>
    obtain ⟨hin, -, hstore, -, hwrite⟩ := h
    subst hs
    exact ⟨hin.snoc (by rintro ⟨⟩), by simp [hstore], hmem hwrite, by simp⟩
  case store.store =>
    subst hs
    exact ⟨h.1.snoc (by rintro ⟨⟩), .inr (.inr (by simp)), by simp⟩
  case unlock.unlock res =>
    cases res <;> simp only [Option.some.injEq] at hs <;> subst hs
    · trivial
    · exact h.2.1.snoc _
  case unwrap.isCompleted found =>
    cases found <;> simp only [Option.some.injEq] at hs <;> subst hs
    · trivial
    · simp [Trail]
  case isCompleted.isCompleted found =>
    subst hs
    cases found <;> simp [Trail]
  case returned.deref res =>
    cases res <;> simp only [reduceCtorEq, Option.some.injEq] at hs
    subst hs
    exact hmem h
  case got.deref res =>
    cases res <;> simp only [reduceCtorEq, Option.some.injEq] at hs
    subst hs
    exact hmem h

inductive Location
  | init
  | mutex
  deriving DecidableEq, Repr

instance : Fintype Location := ⟨{.init, .mutex}, fun l => by cases l <;> simp⟩

/-- The accesses of the source and their orderings. The mutex is taken and freed as a lock
of one word. -/
def Op.toAccess : Op V E → Option (Access Location ℕ)
  | .load init => some (.load .init init.toNat .acquire)
  | .lock => some (.update .mutex 0 1 .acquire)
  | .loadLocked init => some (.load .init init.toNat .relaxed)
  | .store => some (.store .init 1 .release)
  | .unlock => some (.update .mutex 1 0 .release)
  | .isCompleted found => some (.load .init found.isSome.toNat .acquire)
  | _ => none

/-- The points at which a call has the mutex. -/
def Pc.InMutex : Pc V E → Prop
  | .loadLocked => True
  | .new => True
  | .write _ => True
  | .writing _ => True
  | .store => True
  | .unlock _ => True
  | _ => False

theorem Trail.inside {ops : List (Op V E)} {pc : Pc V E} (h : Trail ops pc) (hpc : pc.InMutex) :
    Inside ops := by
  cases pc <;> first | exact hpc.elim | skip
  case unlock res => cases res <;> exact h.1
  all_goals exact h.1

section Events
variable {C F : Type*} {entry : C → Pc V E} {K : CallExecution (code entry) Location F}

/-- The acquisition of the mutex, or an operation at a point at which the call has it. -/
def InMutex (K : CallExecution (code entry) Location F) (e : F) : Prop :=
  K.op e = .lock ∨ ∃ pc, K.At e pc ∧ pc.InMutex

theorem trail_at (hentry : ∀ c, entry c = .load ∨ entry c = .isCompleted) {e : F} {pc : Pc V E}
    (h : K.At e pc) : Trail (K.ops e) pc := by
  refine Code.invariant (I := Trail) ?_ (fun _ _ _ _ => trail_step) h
  change Trail [] (entry (K.call e))
  rcases hentry (K.call e) with he | he <;> rw [he] <;> rfl

/-- The point from which an operation is made, and what came before it. -/
theorem exists_trail (hentry : ∀ c, entry c = .load ∨ entry c = .isCompleted) (e : F) :
    ∃ pc pc', K.At e pc ∧ pc.follow (K.op e) = some pc' ∧ Trail (K.ops e) pc := by
  obtain ⟨pc, pc', hpc, hs⟩ := K.exists_at e
  exact ⟨pc, pc', hpc, hs, trail_at hentry hpc⟩

theorem mutex_locks (hentry : ∀ c, entry c = .load ∨ entry c = .isCompleted) :
    K.Locks Op.toAccess .mutex (· = .lock) (· = .unlock) (InMutex K) fun _ v => v = 1 where
  update e found stored ord ha := by
    cases ho : K.op e <;> rw [ho] at ha <;> simp [Op.toAccess] at ha
    · exact .inl ⟨rfl, ha.1.symm, ha.2.1.symm⟩
    · exact .inr (.inr ⟨rfl, ha.2.1.symm⟩)
  writes e a v ha hw := by
    cases ho : K.op e <;> rw [ho] at ha <;> simp [Op.toAccess] at ha <;> subst ha <;>
      simp [Access.writes] at hw
    all_goals
      subst hw
      exact ⟨_, _, rfl⟩
  take_access e he := ⟨1, .acquire, congrArg Op.toAccess he, by simp, rfl⟩
  free_access e he := ⟨1, .release, congrArg Op.toAccess he, rfl⟩
  held_take _ := .inl
  held_free e he := by
    obtain ⟨pc, pc', hpc, hs, -⟩ := exists_trail (K := K) hentry e
    rw [he] at hs
    refine .inr ⟨pc, hpc, ?_⟩
    cases pc <;> first | trivial | simp [Pc.follow] at hs
  held_taken := by
    rintro e (he | ⟨pc, hpc, hin⟩)
    · exact .inl he
    · exact .inr ⟨_, ((trail_at hentry hpc).inside hin).1, rfl⟩
  held_not_freed := by
    rintro e (he | ⟨pc, hpc, hin⟩) o ho rfl
    · obtain ⟨pc, pc', -, hs, htrail⟩ := exists_trail (K := K) hentry e
      rw [he] at hs
      cases pc <;> simp [Pc.follow] at hs
      exact htrail.2.1 ho
    · exact ((trail_at hentry hpc).inside hin).2 ho
  take_first e he o ho hlock := by
    subst hlock
    obtain ⟨pc, pc', -, hs, htrail⟩ := exists_trail (K := K) hentry e
    rw [he] at hs
    cases pc <;> simp [Pc.follow] at hs
    exact htrail.1 ho

/-- A load of `init` that finds it set reads from a store. -/
theorem exists_store (hK : (K.execution Op.toAccess).Consistent) {g : F}
    (h : (K.execution Op.toAccess).Reads (.inr g) .init 1) :
    ∃ d, K.op d = .store ∧ (K.execution Op.toAccess).rf (.inr d) (.inr g) := by
  obtain ⟨w, hrf⟩ := hK.rf_total _ _ _ h
  obtain ⟨l, v, hw, hr⟩ := hK.rf_value _ _ hrf
  obtain ⟨rfl, rfl⟩ := Execution.Reads.unique hr h
  obtain ⟨a, ha, hwrites⟩ := hw
  cases w with
  | inl l =>
    obtain rfl := Option.some.inj ha
    simp [Access.writes] at hwrites
  | inr d =>
    refine ⟨d, ?_, hrf⟩
    change (K.op d).toAccess = some a at ha
    cases ho : K.op d <;> rw [ho] at ha <;> simp [Op.toAccess] at ha <;> subst ha <;>
      simp [Access.writes] at hwrites

/-- A load of `init` that finds it unset does not come after a store. -/
theorem not_after_store (hK : (K.execution Op.toAccess).Consistent) {d g : F}
    (hd : K.op d = .store) (hg : (K.execution Op.toAccess).Reads (.inr g) .init 0) :
    ¬ (K.execution Op.toAccess).HappensBefore (.inr d) (.inr g) := by
  intro hdg
  obtain ⟨w, hrf⟩ := hK.rf_total _ _ _ hg
  obtain ⟨l, v, hw, hr⟩ := hK.rf_value _ _ hrf
  obtain ⟨rfl, rfl⟩ := Execution.Reads.unique hr hg
  obtain ⟨a, ha, hwrites⟩ := id hw
  have hstore : (K.execution Op.toAccess).Writes (.inr d) .init 1 :=
    ⟨_, congrArg Op.toAccess hd, rfl⟩
  cases w with
  | inl l =>
    have hmo := hK.mo_of_happensBefore hw hstore (.single (.inr (.inl (K.init_first l d))))
    have hne : (Sum.inr g : Location ⊕ F) ≠ .inr d := by
      intro he
      rw [he] at hdg
      exact hK.hb_irrefl _ hdg
    exact hK.coherence _ _ hdg (.overwritten hrf hmo hne)
  | inr e =>
    change (K.op e).toAccess = some a at ha
    cases ho : K.op e <;> rw [ho] at ha <;> simp [Op.toAccess] at ha <;> subst ha <;>
      simp [Access.writes] at hwrites

/-- An acquire load that reads from a store comes after it. -/
theorem after_store {d g : F} (hd : K.op d = .store)
    (hg : K.op g = .load true ∨ ∃ r, K.op g = .isCompleted (some r))
    (hrf : (K.execution Op.toAccess).rf (.inr d) (.inr g)) :
    (K.execution Op.toAccess).HappensBefore (.inr d) (.inr g) := by
  refine .single (.inr (.inr ⟨.inr d, .inr d, .inr g, .inl ⟨rfl, .init, 1, .release, ?_, rfl⟩,
    .head, hrf, .inl ⟨rfl, .init, 1, .acquire, ?_, rfl⟩⟩))
  · exact .inl (congrArg Op.toAccess hd)
  · refine .inl ?_
    rcases hg with hg | ⟨r, hg⟩ <;> exact congrArg Op.toAccess hg

section Consistent
variable (hentry : ∀ c, entry c = .load ∨ entry c = .isCompleted)
  (hK : (K.execution Op.toAccess).Consistent)
include hentry

theorem inMutex_of {e : F} (h : K.op e = .write ∨ K.op e = .written ∨ K.op e = .store ∨
    (∃ init, K.op e = .loadLocked init) ∨ K.op e = .unlock) : InMutex K e := by
  obtain ⟨pc, pc', hpc, hs, -⟩ := exists_trail hentry e
  refine .inr ⟨pc, hpc, ?_⟩
  rcases h with h | h | h | ⟨init, h⟩ | h <;> rw [h] at hs <;>
    cases pc <;> first | trivial | simp [Pc.follow] at hs

/-- Before the write comes the load inside the mutex, and after it the store, before the
mutex is freed. -/
theorem loadLocked_of_write {e : F} (h : K.op e = .write) :
    (∃ g, K.op g = .loadLocked false ∧ K.call g = K.call e) ∧ Untouched (K.ops e) := by
  obtain ⟨pc, pc', -, hs, htrail⟩ := exists_trail (K := K) hentry e
  rw [h] at hs
  cases pc <;> simp [Pc.follow] at hs
  obtain ⟨-, huntouched, hload⟩ := htrail
  obtain ⟨g, hg, hc, -⟩ := CallTrace.mem_ops_iff.mp hload
  exact ⟨⟨g, hg, hc⟩, huntouched⟩

theorem store_of_unlock {x r : F} (hx : K.op x = .write) (hr : K.op r = .unlock)
    (hc : K.call x = K.call r) (hsb : K.sb x r) :
    ∃ d, K.op d = .store ∧ K.call d = K.call r ∧ K.sb d r := by
  obtain ⟨pc, pc', -, hs, htrail⟩ := exists_trail (K := K) hentry r
  have hwrite : .write ∈ K.ops r := CallTrace.mem_ops_iff.mpr ⟨x, hx, hc, hsb⟩
  rw [hr] at hs
  cases pc <;> simp [Pc.follow] at hs
  case unlock res =>
    cases res with
    | error e => exact absurd hwrite htrail.2
    | ok u => exact CallTrace.mem_ops_iff.mp (htrail.2.2 hwrite)

include hK

/-- A call that writes and frees the mutex leaves `init` set to the next. -/
theorem not_frees_before {x g : F} (hx : K.op x = .write) (hg : K.op g = .loadLocked false) :
    ¬ K.FreesBefore Op.toAccess (· = .unlock) (InMutex K) (K.call x) (K.call g) := by
  rintro ⟨r, hr, hcr, hbefore, hafter⟩
  have hxr : K.sb x r := by
    rcases hbefore x (inMutex_of hentry (.inl hx)) rfl with rfl | hsb
    · exact absurd (hx.symm.trans hr) (by simp)
    · exact hsb
  obtain ⟨d, hd, -, hdr⟩ := store_of_unlock hentry hx hr hcr.symm hxr
  have hrg := hafter g (inMutex_of hentry (.inr (.inr (.inr (.inl ⟨_, hg⟩))))) rfl
  exact not_after_store hK hd ⟨_, congrArg Op.toAccess hg, rfl⟩
    ((Execution.happensBefore_of_sb hdr).trans hrg)

theorem write_unique {x y : F} (hx : K.op x = .write) (hy : K.op y = .write) : x = y := by
  have hfirst {x y : F} (hx : K.op x = .write) (hy : K.op y = .write)
      (hc : K.call x = K.call y) : ¬ K.sb x y := fun hsb =>
    (loadLocked_of_write hentry hy).2.1 (CallTrace.mem_ops_iff.mpr ⟨x, hx, hc, hsb⟩)
  by_cases hc : K.call x = K.call y
  · rcases K.sb_total x y hc with h | h | h
    · exact h
    · exact absurd h (hfirst hx hy hc)
    · exact absurd h (hfirst hy hx hc.symm)
  · obtain ⟨⟨g, hg, hcg⟩, -⟩ := loadLocked_of_write hentry hx
    obtain ⟨⟨g', hg', hcg'⟩, -⟩ := loadLocked_of_write hentry hy
    rcases (mutex_locks hentry).freed_before K.mo_wf hK (inMutex_of hentry (.inl hx))
      (inMutex_of hentry (.inl hy)) hc with h | h
    · rw [← hcg'] at h
      exact absurd h (not_frees_before hentry hK hx hg')
    · rw [← hcg] at h
      exact absurd h (not_frees_before hentry hK hy hg)

/-- The relaxed load too comes after the store that it reads from, by the mutex. -/
theorem after_store_locked {d g : F} (hd : K.op d = .store) (hg : K.op g = .loadLocked true)
    (hrf : (K.execution Op.toAccess).rf (.inr d) (.inr g)) :
    (K.execution Op.toAccess).HappensBefore (.inr d) (.inr g) := by
  have hnot : ¬ (K.execution Op.toAccess).HappensBefore (.inr g) (.inr d) :=
    fun hgd => hK.coherence _ _ hgd (.reads hrf)
  have hind := inMutex_of hentry (.inr (.inr (.inl hd)))
  have hing := inMutex_of hentry (.inr (.inr (.inr (.inl ⟨_, hg⟩))))
  by_cases hc : K.call d = K.call g
  · rcases K.sb_total d g hc with rfl | h | h
    · exact absurd (hd.symm.trans hg) (by simp)
    · exact Execution.happensBefore_of_sb h
    · exact absurd (Execution.happensBefore_of_sb h) hnot
  · rcases (mutex_locks hentry).freed_before K.mo_wf hK hind hing hc with h | h
    · exact h.serial hind hing rfl rfl
    · exact absurd (h.serial hing hind rfl rfl) hnot

omit hK in
theorem exists_write {d : F} (hd : K.op d = .store) :
    (∃ w, K.op w = .write ∧ K.call w = K.call d ∧ K.sb w d) ∧
      ∃ w, K.op w = .written ∧ K.call w = K.call d ∧ K.sb w d := by
  obtain ⟨pc, pc', -, hs, htrail⟩ := exists_trail (K := K) hentry d
  rw [hd] at hs
  cases pc <;> simp [Pc.follow] at hs
  exact ⟨CallTrace.mem_ops_iff.mp htrail.2.2.1, CallTrace.mem_ops_iff.mp htrail.2.2.2⟩

omit hK in
theorem of_written {x : F} (hx : K.op x = .written) :
    (∃ w, K.op w = .write ∧ K.call w = K.call x) ∧ .store ∉ K.ops x := by
  obtain ⟨pc, pc', -, hs, htrail⟩ := exists_trail (K := K) hentry x
  rw [hx] at hs
  cases pc <;> simp [Pc.follow] at hs
  obtain ⟨-, -, hstore, -, hwrite⟩ := htrail
  obtain ⟨w, hw, hc, -⟩ := CallTrace.mem_ops_iff.mp hwrite
  exact ⟨⟨w, hw, hc⟩, hstore⟩

/-- All that is written to the slot is written before a store. -/
theorem before_store {d x : F} (hd : K.op d = .store) (hx : K.op x = .write ∨ K.op x = .written) :
    K.sb x d := by
  obtain ⟨⟨w, hw, hcw, hwd⟩, -⟩ := exists_write hentry hd
  rcases hx with hx | hx
  · rw [write_unique hentry hK hx hw]
    exact hwd
  · obtain ⟨⟨w', hw', hcw'⟩, hstore⟩ := of_written hentry hx
    obtain rfl := write_unique hentry hK hw hw'
    have hc : K.call x = K.call d := hcw'.symm.trans hcw
    rcases K.sb_total x d hc with rfl | h | h
    · exact absurd (hx.symm.trans hd) (by simp)
    · exact h
    · exact absurd (CallTrace.mem_ops_iff.mpr ⟨d, hd, hc.symm, h⟩) hstore

/-- A call that has seen `init` set, or has set it, comes after a store. -/
theorem after_store_of_done {e : F} (h : Done (K.ops e)) :
    ∃ d, K.op d = .store ∧ (K.execution Op.toAccess).HappensBefore (.inr d) (.inr e) := by
  rcases h with h | h | h
  · obtain ⟨g, hg, -, hge⟩ := CallTrace.mem_ops_iff.mp h
    obtain ⟨d, hd, hrf⟩ := exists_store hK ⟨_, congrArg Op.toAccess hg, rfl⟩
    exact ⟨d, hd, (after_store hd (.inl hg) hrf).tail (.inl hge)⟩
  · obtain ⟨g, hg, -, hge⟩ := CallTrace.mem_ops_iff.mp h
    obtain ⟨d, hd, hrf⟩ := exists_store hK ⟨_, congrArg Op.toAccess hg, rfl⟩
    exact ⟨d, hd, (after_store_locked hentry hK hd hg hrf).tail (.inl hge)⟩
  · obtain ⟨d, hd, -, hde⟩ := CallTrace.mem_ops_iff.mp h
    exact ⟨d, hd, Execution.happensBefore_of_sb hde⟩

theorem after_store_of_deref {e : F} (he : K.op e = .deref) :
    ∃ d, K.op d = .store ∧ (K.execution Op.toAccess).HappensBefore (.inr d) (.inr e) := by
  obtain ⟨pc, pc', -, hs, htrail⟩ := exists_trail (K := K) hentry e
  have hfound : ∃ r, .isCompleted (some r) ∈ K.ops e := by
    rw [he] at hs
    cases pc <;> simp [Pc.follow] at hs
    case returned res =>
      cases res with
      | error e => simp at hs
      | ok r => exact ⟨r, htrail⟩
    case got res =>
      cases res with
      | none => simp at hs
      | some r => exact ⟨r, htrail⟩
  obtain ⟨r, hr⟩ := hfound
  obtain ⟨g, hg, -, hge⟩ := CallTrace.mem_ops_iff.mp hr
  obtain ⟨d, hd, hrf⟩ := exists_store hK ⟨_, congrArg Op.toAccess hg, rfl⟩
  exact ⟨d, hd, (after_store hd (.inr ⟨r, hg⟩) hrf).tail (.inl hge)⟩

end Consistent

/-- The slot is written once, what is written happens before every use of a reference to
it, and the second `get` of `get_or_init` finds it. -/
theorem static_root_published (hentry : ∀ c, entry c = .load ∨ entry c = .isCompleted)
    (hK : (K.execution Op.toAccess).Consistent) :
    (∀ x y, K.op x = .write → K.op y = .write → x = y) ∧
    (∀ e, K.op e = .deref → (∃ w, K.op w = .written) ∧
      ∀ x, K.op x = .write ∨ K.op x = .written →
        (K.execution Op.toAccess).HappensBefore (.inr x) (.inr e)) ∧
    ∀ e found, K.At e .unwrap → K.op e = .isCompleted found → found.isSome = true := by
  refine ⟨fun x y => write_unique hentry hK, fun e he => ?_, fun e found hpc he => ?_⟩
  · obtain ⟨d, hd, hde⟩ := after_store_of_deref hentry hK he
    obtain ⟨-, w, hw, -⟩ := exists_write hentry hd
    exact ⟨⟨w, hw⟩, fun x hx =>
      (Execution.happensBefore_of_sb (before_store hentry hK hd hx)).trans hde⟩
  · obtain ⟨d, hd, hde⟩ := after_store_of_done hentry hK (trail_at hentry hpc)
    cases found with
    | some r => rfl
    | none => exact absurd hde (not_after_store hK hd ⟨_, congrArg Op.toAccess he, rfl⟩)

end Events

/-- Call 1 finds `init` unset and waits for the mutex while call 0 makes the value; its
second load is the relaxed one. Call 2 is a `get`. -/
def losesRace : List (Fin 3 × Op ℕ String) :=
  [(0, .load false), (1, .load false), (0, .lock), (0, .loadLocked false), (0, .new (.ok 7)),
    (0, .write), (0, .written), (0, .store), (0, .unlock), (1, .lock), (1, .loadLocked true),
    (1, .unlock), (1, .isCompleted (some (.written 7))), (1, .deref),
    (2, .isCompleted (some (.written 7))), (2, .deref)]

def losesRaceEntry (c : Fin 3) : Pc ℕ String := if c = 2 then .isCompleted else .load

def Location.index : Location → Fin 2
  | .init => ⟨0, Nat.two_pos⟩
  | .mutex => ⟨1, Nat.one_lt_two⟩

def losesRaceExecution : CallExecution (code losesRaceEntry) Location (Fin 16) :=
  .ofList (code losesRaceEntry) Op.toAccess Location.index losesRace (by decide)

/-- The write that an event of `losesRace` reads. -/
def losesRaceSource : Fin 16 → Location ⊕ Fin 16 :=
  ![.inl .init, .inl .init, .inl .mutex, .inl .init, .inl .init, .inl .init, .inl .init,
    .inl .init, .inr 2, .inr 8, .inr 7, .inr 9, .inr 7, .inl .init, .inr 7, .inl .init]

def losesRaceAccess : Location ⊕ Fin 16 → Option (Access Location ℕ) :=
  CallExecution.accesses (fun e : Fin 16 => (losesRace.get e).2) Op.toAccess

def losesRacePos : Location ⊕ Fin 16 → ℕ := CallExecution.listPos Location.index

theorem losesRace_consistent : (losesRaceExecution.execution Op.toAccess).Consistent := by
  change (CallExecution.listExecution Op.toAccess Location.index losesRace).Consistent
  refine CallExecution.listExecution_consistent (by rintro ⟨⟩ ⟨⟩ h <;> cases h <;> rfl)
    losesRaceSource ?_
  have hlast : ∀ e : Fin 16, ∀ lv ∈ Execution.wasRead losesRaceAccess (.inr e),
      Execution.LastWrite losesRaceAccess losesRacePos lv.1 (losesRaceSource e) (.inr e) := by
    decide
  intro (e : Fin 16) lv hlv
  refine ⟨?_, hlast e lv hlv⟩
  fin_cases e <;> first | exact hlv | cases hlv

theorem static_root_published_race :
    losesRaceExecution.op 5 = .write ∧ losesRaceExecution.op 13 = .deref ∧
      (losesRaceExecution.execution Op.toAccess).HappensBefore (.inr 5) (.inr 13) ∧
      (losesRaceExecution.execution Op.toAccess).HappensBefore (.inr 5) (.inr 15) := by
  have hentry : ∀ c, losesRaceEntry c = .load ∨ losesRaceEntry c = .isCompleted := by
    intro c
    fin_cases c
    · exact .inl rfl
    · exact .inl rfl
    · exact .inr rfl
  have h := static_root_published hentry losesRace_consistent
  exact ⟨rfl, rfl, (h.2.1 13 rfl).2 5 (.inl rfl), (h.2.1 15 rfl).2 5 (.inl rfl)⟩

end SignalCrates.StaticRoot
