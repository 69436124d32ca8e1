import SignalCrates.CriticalSections
import SignalCrates.Sequential

/-!
# Calls as events of an execution

Each call follows its code, one operation an event; how the events of different calls are
ordered is up to the memory model. What the code guarantees about the operations of one
call is an invariant over the list of its earlier operations.
-/
namespace SignalCrates.CallEvents
open MemoryModel

variable {C O S L E V : Type*}

/-- The code of the calls `C`, from its start by one operation after the other. -/
structure Code (C O S : Type*) where
  start : C → S
  step : C → S → O → Option S

namespace Code

def run (A : Code C O S) (c : C) (ops : List O) : Option S := ops.foldlM (A.step c) (A.start c)

variable {A : Code C O S} {c : C}

theorem run_snoc {ops : List O} {o : O} {s' : S} (h : A.run c (ops ++ [o]) = some s') :
    ∃ s, A.run c ops = some s ∧ A.step c s o = some s' := by
  simp only [run, List.foldlM_append, List.foldlM_cons, List.foldlM_nil] at h
  obtain ⟨s, hs, h⟩ := Option.bind_eq_some_iff.mp h
  obtain ⟨s₁, hs₁, h⟩ := Option.bind_eq_some_iff.mp h
  obtain rfl : s₁ = s' := Option.some.inj h
  exact ⟨s, hs, hs₁⟩

/-- What holds at the start and is kept by every operation holds along a call. -/
theorem invariant {I : List O → S → Prop} (hstart : I [] (A.start c))
    (hstep : ∀ ops s o s', I ops s → A.step c s o = some s' → I (ops ++ [o]) s')
    {ops : List O} {s : S} (h : A.run c ops = some s) : I ops s := by
  induction ops using List.reverseRecOn generalizing s with
  | nil =>
    obtain rfl : A.start c = s := Option.some.inj h
    exact hstart
  | append_singleton ops o ih =>
    obtain ⟨s₀, hs₀, hs⟩ := run_snoc h
    exact hstep _ _ _ _ (ih hs₀) hs

end Code

/-- The events are the initializations of the locations `L` and the operations `E`;
`before e` lists the earlier operations of the call that `e` is of. -/
structure CallTrace (A : Code C O S) (L E : Type*) where
  call : E → C
  op : E → O
  before : E → List E
  sb : E → E → Prop
  rf : L ⊕ E → L ⊕ E → Prop
  mo : L ⊕ E → L ⊕ E → Prop
  sc : L ⊕ E → L ⊕ E → Prop
  sw₀ : L ⊕ E → L ⊕ E → Prop
  init_first : ∀ l e, sw₀ (.inl l) (.inr e)
  sb_total : ∀ d e, call d = call e → d = e ∨ sb d e ∨ sb e d
  mem_before : ∀ d e, d ∈ before e ↔ call d = call e ∧ sb d e
  follows : ∀ e, ∃ s, A.run (call e) ((before e ++ [e]).map op) = some s

/-- Every operation has finitely many modifications behind it, so that what the
modifications keep can be proved by induction along them. -/
structure CallExecution (A : Code C O S) (L E : Type*) extends CallTrace A L E where
  mo_wf : WellFounded mo

variable {A : Code C O S}

/-- The accesses of the operations, and of the initializations with 0. -/
def CallExecution.accesses [Zero V] (op : E → O) (access : O → Option (Access L V)) :
    L ⊕ E → Option (Access L V)
  | .inl l => some (.store l 0 .relaxed)
  | .inr e => access (op e)

/-- Initializations come before the operations, but in no call. -/
def liftSb (sb : E → E → Prop) : L ⊕ E → L ⊕ E → Prop
  | .inr d, .inr e => sb d e
  | _, _ => False

namespace CallTrace

def execution [Zero V] (K : CallTrace A L E) (access : O → Option (Access L V)) :
    Execution (L ⊕ E) L V where
  access := CallExecution.accesses K.op access
  sb := liftSb K.sb
  rf := K.rf
  mo := K.mo
  sc := K.sc
  sw₀ := K.sw₀

/-- The call stands at this point when it makes the operation. -/
def At (K : CallTrace A L E) (e : E) (s : S) : Prop :=
  A.run (K.call e) ((K.before e).map K.op) = some s

def ops (K : CallTrace A L E) (e : E) : List O := (K.before e).map K.op

theorem exists_at (K : CallTrace A L E) (e : E) :
    ∃ s s', K.At e s ∧ A.step (K.call e) s (K.op e) = some s' := by
  obtain ⟨s', hs'⟩ := K.follows e
  rw [List.map_append, List.map_singleton] at hs'
  obtain ⟨s, hs, h⟩ := Code.run_snoc hs'
  exact ⟨s, s', hs, h⟩

variable {K : CallTrace A L E}

theorem mem_ops_iff {e : E} {o : O} :
    o ∈ K.ops e ↔ ∃ d, K.op d = o ∧ K.call d = K.call e ∧ K.sb d e := by
  rw [ops, List.mem_map]
  constructor
  · rintro ⟨d, hd, rfl⟩
    exact ⟨d, rfl, (K.mem_before d e).mp hd⟩
  · rintro ⟨d, ho, hd⟩
    exact ⟨d, (K.mem_before d e).mpr hd, ho⟩

theorem mem_ops_of_sb {d e : E} (hc : K.call d = K.call e) (hsb : K.sb d e) :
    K.op d ∈ K.ops e := mem_ops_iff.mpr ⟨d, rfl, hc, hsb⟩

/-- Two operations that the call has made in this order. -/
theorem exists_of_sublist {P : Type*} {f : O → Option P} {e : E} {p p' : P}
    (hsorted : (K.before e).Pairwise K.sb) (h : [p, p'].Sublist ((K.ops e).filterMap f)) :
    ∃ d d', f (K.op d) = some p ∧ f (K.op d') = some p' ∧ K.call d = K.call e ∧
      K.call d' = K.call e ∧ K.sb d d' ∧ K.sb d' e := by
  rw [ops, List.filterMap_map] at h
  obtain ⟨l, hl, he⟩ := List.sublist_filterMap_iff.mp h
  obtain ⟨l₁, d, l₂, rfl, -, hd, he⟩ := List.filterMap_eq_cons_iff.mp he.symm
  obtain ⟨l₃, d', l₄, rfl, -, hd', -⟩ := List.filterMap_eq_cons_iff.mp he
  have hmem : d ∈ K.before e ∧ d' ∈ K.before e := ⟨hl.subset (by simp), hl.subset (by simp)⟩
  have hcd := (K.mem_before d e).mp hmem.1
  have hcd' := (K.mem_before d' e).mp hmem.2
  have hpair := List.pairwise_append.mp (hsorted.sublist hl)
  exact ⟨d, d', hd, hd', hcd.1, hcd'.1, List.rel_of_pairwise_cons hpair.2.1 (by simp), hcd'.2⟩

/-- The call that an event belongs to. -/
def callOf (K : CallTrace A L E) : L ⊕ E → Option C
  | .inl _ => none
  | .inr e => some (K.call e)

theorem callOf_eq {a : L ⊕ E} {c : C} (h : K.callOf a = some c) :
    ∃ e, a = .inr e ∧ K.call e = c := by
  cases a with
  | inl l => cases h
  | inr e => exact ⟨e, rfl, Option.some.inj h⟩

/-- How the code of the calls uses the location `l` as a lock: by operations that take it,
operations that free it and others that keep it taken. An event is `held` from the one to
the other, and `holds c v` says that `v` is a value of the location while `c` has it. -/
structure Locks [Zero V] (K : CallTrace A L E) (access : O → Option (Access L V)) (l : L)
    (take free : O → Prop) (held : E → Prop) (holds : C → V → Prop) : Prop where
  update : ∀ e found stored ord, access (K.op e) = some (.update l found stored ord) →
    (take (K.op e) ∧ found = 0 ∧ holds (K.call e) stored) ∨
      (found ≠ 0 ∧ stored ≠ 0 ∧ ∀ c, holds c found → holds c stored) ∨
      free (K.op e) ∧ stored = 0
  writes : ∀ e a v, access (K.op e) = some a → a.writes = some (l, v) →
    ∃ found ord, a = .update l found v ord
  take_access : ∀ e, take (K.op e) → ∃ v ord,
    access (K.op e) = some (.update l 0 v ord) ∧ v ≠ 0 ∧ ord.acquires = true
  free_access : ∀ e, free (K.op e) → ∃ found ord,
    access (K.op e) = some (.update l found 0 ord) ∧ ord.releases = true
  held_take : ∀ e, take (K.op e) → held e
  held_free : ∀ e, free (K.op e) → held e
  held_taken : ∀ e, held e → take (K.op e) ∨ ∃ o ∈ K.ops e, take o
  held_not_freed : ∀ e, held e → ∀ o ∈ K.ops e, ¬ free o
  take_first : ∀ e, take (K.op e) → ∀ o ∈ K.ops e, ¬ take o

section Locks
variable [Zero V] {access : O → Option (Access L V)} {l : L} {take free : O → Prop}
  {held : E → Prop} {holds : C → V → Prop}

theorem Locks.takes_iff (h : K.Locks access l take free held holds) {a : L ⊕ E} :
    (K.execution access).Takes l a ↔ ∃ e, a = .inr e ∧ take (K.op e) := by
  constructor
  · rintro ⟨v, ord, ha, hv, -⟩
    cases a with
    | inl l => cases ha
    | inr e =>
      rcases h.update e 0 v ord ha with ⟨ht, -⟩ | ⟨h0, -⟩ | ⟨-, h0⟩
      · exact ⟨e, rfl, ht⟩
      · exact absurd rfl h0
      · exact absurd h0 hv
  · rintro ⟨e, rfl, ht⟩
    obtain ⟨v, ord, ha, hv, hord⟩ := h.take_access e ht
    exact ⟨v, ord, ha, hv, hord⟩

theorem Locks.frees_iff (h : K.Locks access l take free held holds) {a : L ⊕ E} :
    (K.execution access).Frees l a ↔ ∃ e, a = .inr e ∧ free (K.op e) := by
  constructor
  · rintro ⟨found, ord, ha, -⟩
    cases a with
    | inl l => cases ha
    | inr e =>
      rcases h.update e found 0 ord ha with ⟨ht, -⟩ | ⟨-, h0, -⟩ | ⟨hf, -⟩
      · obtain ⟨v, ord', ha', hv, -⟩ := h.take_access e ht
        have he := ha.symm.trans ha'
        simp only [Option.some.injEq, Access.update.injEq] at he
        exact absurd he.2.2.1.symm hv
      · exact absurd rfl h0
      · exact ⟨e, rfl, hf⟩
  · rintro ⟨e, rfl, hf⟩
    obtain ⟨found, ord, ha, hord⟩ := h.free_access e hf
    exact ⟨found, ord, ha, hord⟩

theorem Locks.lockCalls (h : K.Locks access l take free held holds) (hwf : WellFounded K.mo)
    (hK : (K.execution access).Consistent) :
    (K.execution access).LockCalls l K.callOf (fun a => ∃ e, a = .inr e ∧ held e) holds where
  wf := hwf
  init := by
    have hinit : (K.execution access).Writes (.inl l) l 0 := ⟨_, rfl, rfl⟩
    refine ⟨.inl l, hinit, fun a v ha => ?_⟩
    obtain ⟨x, hx, hw⟩ := id ha
    cases a with
    | inl l' =>
      obtain rfl := Option.some.inj hx
      simp only [Access.writes, Option.some.injEq, Prod.mk.injEq] at hw
      exact .inl (congrArg Sum.inl hw.1)
    | inr e =>
      obtain ⟨found, ord, rfl⟩ := h.writes e x v hx hw
      refine .inr ⟨hK.mo_of_happensBefore hinit ha (.single (.inr (.inl (K.init_first _ e)))), ?_⟩
      rcases h.update e found v ord hx with ⟨ht, -⟩ | ⟨hfound, hstored, -⟩ | ⟨hf, -⟩
      · exact .inl (h.takes_iff.mpr ⟨e, rfl, ht⟩)
      · exact .inr (.inl ⟨found, v, ord, hx, hfound, hstored⟩)
      · exact .inr (.inr (h.frees_iff.mpr ⟨e, rfl, hf⟩))
  sb_total d e c hd he := by
    obtain ⟨d, rfl, hcd⟩ := callOf_eq hd
    obtain ⟨e, rfl, hce⟩ := callOf_eq he
    exact (K.sb_total d e (hcd.trans hce.symm)).imp_left (congrArg Sum.inr)
  takes_live a ha := by
    obtain ⟨e, rfl, ht⟩ := h.takes_iff.mp ha
    exact ⟨e, rfl, h.held_take e ht⟩
  frees_live r hr := by
    obtain ⟨e, rfl, hf⟩ := h.frees_iff.mp hr
    exact ⟨e, rfl, h.held_free e hf⟩
  live_takes a ha := by
    obtain ⟨e, rfl, he⟩ := ha
    rcases h.held_taken e he with ht | ⟨o, ho, ht⟩
    · exact ⟨.inr e, K.call e, h.takes_iff.mpr ⟨e, rfl, ht⟩, rfl, rfl, .inl rfl⟩
    · obtain ⟨d, rfl, hc, hsb⟩ := mem_ops_iff.mp ho
      exact ⟨.inr d, K.call e, h.takes_iff.mpr ⟨d, rfl, ht⟩, congrArg some hc, rfl, .inr hsb⟩
  takes_once a b c ha hb hca hcb hsb := by
    obtain ⟨d, rfl, hd⟩ := h.takes_iff.mp ha
    obtain ⟨e, rfl, he⟩ := h.takes_iff.mp hb
    have hc := Option.some.inj (hca.trans hcb.symm)
    exact h.take_first e he _ (mem_ops_of_sb hc hsb) hd
  not_freed r a c hr ha hcr hca hsb := by
    obtain ⟨d, rfl, hd⟩ := h.frees_iff.mp hr
    obtain ⟨e, rfl, he⟩ := ha
    have hc := Option.some.inj (hcr.trans hca.symm)
    exact h.held_not_freed e he _ (mem_ops_of_sb hc hsb) hd
  holds_takes a c v ha hc hv := by
    obtain ⟨e, rfl, ht⟩ := h.takes_iff.mp ha
    obtain rfl := Option.some.inj hc
    obtain ⟨v', ord, hacc, hv', -⟩ := h.take_access e ht
    rw [(Execution.Writes.unique hv ⟨_, hacc, rfl⟩).2]
    rcases h.update e 0 v' ord hacc with ⟨-, -, hh⟩ | ⟨h0, -⟩ | ⟨-, h0⟩
    · exact hh
    · exact absurd rfl h0
    · exact absurd h0 hv'
  holds_keeps a found stored ord c ha hfound hstored hh := by
    cases a with
    | inl l' => cases ha
    | inr e =>
      rcases h.update e found stored ord ha with ⟨-, h0, -⟩ | ⟨-, -, hkeep⟩ | ⟨-, h0⟩
      · exact absurd h0 hfound
      · exact hkeep c hh
      · exact absurd h0 hstored

/-- The call `c` frees the lock after all that it does with it, and before all that `c'`
does with it. -/
def FreesBefore (K : CallTrace A L E) (access : O → Option (Access L V))
    (free : O → Prop) (held : E → Prop) (c c' : C) : Prop :=
  ∃ r, free (K.op r) ∧ K.call r = c ∧ (∀ z, held z → K.call z = c → z = r ∨ K.sb z r) ∧
    ∀ z, held z → K.call z = c' → (K.execution access).HappensBefore (.inr r) (.inr z)

theorem FreesBefore.serial {c c' : C} (h : K.FreesBefore access free held c c') {x y : E}
    (hx : held x) (hy : held y) (hcx : K.call x = c) (hcy : K.call y = c') :
    (K.execution access).HappensBefore (.inr x) (.inr y) := by
  obtain ⟨r, -, -, hbefore, hafter⟩ := h
  have hry := hafter y hy hcy
  rcases hbefore x hx hcx with rfl | hsb
  · exact hry
  · exact (Execution.happensBefore_of_sb hsb).trans hry

/-- Of two calls that hold the lock at some time the one frees it before the other takes it. -/
theorem Locks.freed_before (h : K.Locks access l take free held holds) (hwf : WellFounded K.mo)
    (hK : (K.execution access).Consistent) {x y : E} (hx : held x) (hy : held y)
    (hne : K.call x ≠ K.call y) :
    K.FreesBefore access free held (K.call x) (K.call y) ∨
      K.FreesBefore access free held (K.call y) (K.call x) := by
  have hC := h.lockCalls hwf hK
  have hfree {x y : E} {a b : L ⊕ E}
      (ha : (K.execution access).Takes l a) (hb : (K.execution access).Takes l b)
      (hca : K.callOf a = some (K.call x)) (hcb : K.callOf b = some (K.call y))
      (h' : ∃ r, (K.execution access).Frees l r ∧
        Execution.LockCalls.taker (K.execution access) l K.callOf r = a ∧
        (K.execution access).HappensBefore r b) :
      K.FreesBefore access free held (K.call x) (K.call y) := by
    obtain ⟨r, hr, ho, hrb⟩ := h'
    obtain ⟨e, rfl, he⟩ := h.frees_iff.mp hr
    obtain ⟨a', c, -, hca', hcr, -, ho'⟩ := hC.of_frees hr
    obtain rfl := ho'.symm.trans ho
    refine ⟨e, he, Option.some.inj (hcr.trans (hca'.symm.trans hca)), ?_, ?_⟩
    · intro z hz hcz
      have hwithin := hC.within ha ⟨z, rfl, hz⟩ hca (congrArg some hcz)
      exact (hwithin.2 _ hr ho).imp_left Sum.inr.inj
    · intro z hz hcz
      rcases (hC.within hb ⟨z, rfl, hz⟩ hcb (congrArg some hcz)).1 with rfl | hsb
      · exact hrb
      · exact hrb.tail (.inl hsb)
  obtain ⟨a, c, ha, hca, hc, -⟩ := hC.live_takes _ ⟨x, rfl, hx⟩
  obtain ⟨b, c', hb, hcb, hc', -⟩ := hC.live_takes _ ⟨y, rfl, hy⟩
  obtain rfl : K.call x = c := Option.some.inj hc
  obtain rfl : K.call y = c' := Option.some.inj hc'
  have hab : a ≠ b := by
    rintro rfl
    exact hne (Option.some.inj (hca.symm.trans hcb))
  exact (hC.lockProtocol.sections_ordered hK ha hb hab).imp (hfree ha hb hca hcb)
    (hfree hb ha hcb hca)

/-- Of two calls everything that the one does while it holds the lock happens before
everything that the other does. -/
theorem Locks.sections_serial (h : K.Locks access l take free held holds)
    (hwf : WellFounded K.mo) (hK : (K.execution access).Consistent) {c c' : C} (hne : c ≠ c') :
    (∀ x y, held x → held y → K.call x = c → K.call y = c' →
      (K.execution access).HappensBefore (.inr x) (.inr y)) ∨
    ∀ x y, held x → held y → K.call x = c → K.call y = c' →
      (K.execution access).HappensBefore (.inr y) (.inr x) := by
  by_cases hexists : ∃ x y, held x ∧ held y ∧ K.call x = c ∧ K.call y = c'
  · obtain ⟨x, y, hx, hy, rfl, rfl⟩ := hexists
    refine (h.freed_before hwf hK hx hy hne).imp ?_ ?_
    · exact fun h x y hx hy hcx hcy => h.serial hx hy hcx hcy
    · exact fun h x y hx hy hcx hcy => h.serial hy hx hcy hcx
  · exact .inl fun x y hx hy hcx hcy => absurd ⟨x, y, hx, hy, hcx, hcy⟩ hexists

theorem Locks.frees_holds (h : K.Locks access l take free held holds) (hwf : WellFounded K.mo)
    (hK : (K.execution access).Consistent) {r : E} {v : V} (hr : free (K.op r))
    (hv : (K.execution access).Reads (.inr r) l v) : holds (K.call r) v :=
  (h.lockCalls hwf hK).frees_holds hK (h.frees_iff.mpr ⟨r, rfl, hr⟩) rfl hv

end Locks

end CallTrace

namespace CallExecution

section Sequential
variable [Zero V] {access : O → Option (Access L V)} [DecidableEq C] {n : ℕ}

/-- The initializations come first, in the order `index`. -/
def listPos (index : L → Fin n) {m : ℕ} : L ⊕ Fin m → ℕ
  | .inl l => index l
  | .inr e => n + e

/-- The operations of the list take place one after the other. -/
def listExecution (access : O → Option (Access L V)) (index : L → Fin n) (ls : List (C × O)) :
    Execution (L ⊕ Fin ls.length) L V :=
  .sequential (accesses (fun e => (ls.get e).2) access)
    (liftSb fun d e => (ls.get d).1 = (ls.get e).1 ∧ d < e)
    (fun a b => a.isLeft = true ∧ b.isRight = true) (listPos index)

/-- The earlier operations of the same call. -/
def listBefore (ls : List (C × O)) (e : Fin ls.length) : List (Fin ls.length) :=
  (List.finRange ls.length).filter fun d => (ls.get d).1 = (ls.get e).1 ∧ d < e

theorem listBefore_sorted (ls : List (C × O)) (e : Fin ls.length) :
    (listBefore ls e).Pairwise fun d d' => (ls.get d).1 = (ls.get d').1 ∧ d < d' := by
  have hlt : (listBefore ls e).Pairwise (· < ·) := (List.pairwise_lt_finRange _).filter _
  refine hlt.imp_of_mem fun hd hd' h => ⟨?_, h⟩
  simp only [listBefore, List.mem_filter, decide_eq_true_eq] at hd hd'
  exact hd.2.1.trans hd'.2.1.symm

def ofList (A : Code C O S) (access : O → Option (Access L V)) (index : L → Fin n)
    (ls : List (C × O))
    (hfollows : ∀ e, (A.run (ls.get e).1
      ((listBefore ls e ++ [e]).map fun d => (ls.get d).2)).isSome = true) :
    CallExecution A L (Fin ls.length) where
  call e := (ls.get e).1
  op e := (ls.get e).2
  before := listBefore ls
  sb d e := (ls.get d).1 = (ls.get e).1 ∧ d < e
  rf := (listExecution access index ls).rf
  mo := (listExecution access index ls).mo
  sc := (listExecution access index ls).sc
  sw₀ := (listExecution access index ls).sw₀
  mo_wf := Execution.sequential_wf
  init_first _ _ := ⟨rfl, rfl⟩
  sb_total d e hc := by
    rcases lt_trichotomy d e with h | h | h
    · exact .inr (.inl ⟨hc, h⟩)
    · exact .inl h
    · exact .inr (.inr ⟨hc.symm, h⟩)
  mem_before d e := by simp [listBefore]
  follows e := Option.isSome_iff_exists.mp (hfollows e)

omit [DecidableEq C] in
/-- It is enough that every operation reads its `source`, the last write before it. -/
theorem listExecution_consistent {index : L → Fin n} {ls : List (C × O)}
    (hindex : Function.Injective index) (source : Fin ls.length → L ⊕ Fin ls.length)
    (hread : ∀ e, ∀ lv ∈ Execution.wasRead (accesses (fun e => (ls.get e).2) access) (.inr e),
      Execution.wrote (accesses (fun e => (ls.get e).2) access) (source e) = some lv ∧
        Execution.LastWrite (accesses (fun e => (ls.get e).2) access) (listPos index) lv.1
          (source e) (.inr e)) :
    (listExecution access index ls).Consistent := by
  refine (Execution.sequential_interleaved (?_ : Function.Injective (listPos index))
    ?_ ?_ ?_ ?_).consistent
  · rintro (l | e) (l' | e') h
    · exact congrArg Sum.inl (hindex (Fin.ext h))
    · have := (index l).isLt
      simp only [listPos] at h
      omega
    · have := (index l').isLt
      simp only [listPos] at h
      omega
    · refine congrArg Sum.inr (Fin.ext ?_)
      simpa [listPos] using h
  · rintro (l | d) (l' | e) h
    · exact h.elim
    · exact h.elim
    · exact h.elim
    · exact Nat.add_lt_add_left h.2 n
  · rintro (l | a) (l' | b) (l'' | c) hab hbc
    all_goals first | exact hab.elim | exact hbc.elim | skip
    exact ⟨hab.1.trans hbc.1, hab.2.trans hbc.2⟩
  · rintro (l | d) (l' | e) h
    · cases h.2
    · have := (index l).isLt
      simp only [listPos]
      omega
    · cases h.1
    · cases h.1
  · rintro (l | e) lv hlv
    · cases hlv
    · exact ⟨source e, hread e lv hlv⟩

end Sequential

end CallExecution

end SignalCrates.CallEvents
