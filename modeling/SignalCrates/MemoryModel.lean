import Mathlib

/-!
# Executions of the C++20 memory model

Events are related by sequenced-before, reads-from, one modification order for each
location and a total order on the sequentially consistent fences. The model has atomic
accesses and fences of every order but consume, no non-atomic accesses, and no
sequentially consistent accesses apart from fences.
-/
namespace SignalCrates.MemoryModel

inductive MemoryOrder
  | relaxed
  | acquire
  | release
  | acqRel
  | seqCst
  deriving DecidableEq, Repr

inductive Access (L V : Type*)
  | load (l : L) (v : V) (o : MemoryOrder)
  | store (l : L) (v : V) (o : MemoryOrder)
  | update (l : L) (found stored : V) (o : MemoryOrder)
  | fence (o : MemoryOrder)

/-- `sw₀` is the synchronization from outside, such as the start of a thread. -/
structure Execution (E L V : Type*) where
  access : E → Option (Access L V)
  sb : E → E → Prop
  rf : E → E → Prop
  mo : E → E → Prop
  sc : E → E → Prop
  sw₀ : E → E → Prop

variable {E L V : Type*}

def MemoryOrder.releases : MemoryOrder → Bool
  | .release => true
  | .acqRel => true
  | .seqCst => true
  | _ => false

def MemoryOrder.acquires : MemoryOrder → Bool
  | .acquire => true
  | .acqRel => true
  | .seqCst => true
  | _ => false

def Access.reads : Access L V → Option (L × V)
  | .load l v _ => some (l, v)
  | .update l found _ _ => some (l, found)
  | _ => none

def Access.writes : Access L V → Option (L × V)
  | .store l v _ => some (l, v)
  | .update l _ stored _ => some (l, stored)
  | _ => none

namespace Execution

def Reads (X : Execution E L V) (e : E) (l : L) (v : V) : Prop :=
  ∃ a, X.access e = some a ∧ a.reads = some (l, v)

def Writes (X : Execution E L V) (e : E) (l : L) (v : V) : Prop :=
  ∃ a, X.access e = some a ∧ a.writes = some (l, v)

/-- The event is an atomic read-modify-write operation. -/
def Updates (X : Execution E L V) (e : E) : Prop :=
  ∃ l found stored o, X.access e = some (.update l found stored o)

def Fence (X : Execution E L V) (e : E) : Prop := X.access e = some (.fence .seqCst)

/-- `a` releases what the write `x` or the writes that follow it publish. -/
def Releases (X : Execution E L V) (a x : E) : Prop :=
  (a = x ∧ ∃ l v o, (X.access a = some (.store l v o) ∨
      ∃ found, X.access a = some (.update l found v o)) ∧ o.releases = true) ∨
    ∃ o, X.access a = some (.fence o) ∧ o.releases = true ∧ X.sb a x

/-- `b` acquires what the read `y` has seen. -/
def Acquires (X : Execution E L V) (y b : E) : Prop :=
  (y = b ∧ ∃ l v o, (X.access b = some (.load l v o) ∨
      ∃ stored, X.access b = some (.update l v stored o)) ∧ o.acquires = true) ∨
    ∃ o, X.access b = some (.fence o) ∧ o.acquires = true ∧ X.sb y b

/-- The release sequence of `x`: the updates that read from it, one from another. -/
inductive ReleaseSequence (X : Execution E L V) (x : E) : E → Prop
  | head : ReleaseSequence X x x
  | next {w u : E} (h : ReleaseSequence X x w) (hu : X.Updates u) (hr : X.rf w u) :
      ReleaseSequence X x u

def SynchronizesWith (X : Execution E L V) (a b : E) : Prop :=
  X.sw₀ a b ∨ ∃ x w y, X.Releases a x ∧ X.ReleaseSequence x w ∧ X.rf w y ∧ X.Acquires y b

def HappensBefore (X : Execution E L V) : E → E → Prop :=
  Relation.TransGen fun a b => X.sb a b ∨ X.SynchronizesWith a b

/-- Coherence-ordered before: by reading, by modification order, by reading a value
that is overwritten, and transitively. -/
inductive CoherenceOrdered (X : Execution E L V) : E → E → Prop
  | reads {a b : E} (h : X.rf a b) : CoherenceOrdered X a b
  | modified {a b : E} (h : X.mo a b) : CoherenceOrdered X a b
  | overwritten {w a b : E} (h : X.rf w a) (hm : X.mo w b) (hne : a ≠ b) :
      CoherenceOrdered X a b
  | trans {a b c : E} (hab : CoherenceOrdered X a b) (hbc : CoherenceOrdered X b c) :
      CoherenceOrdered X a c

/-- The axioms of the model. -/
structure Consistent (X : Execution E L V) : Prop where
  sb_trans : ∀ a b c, X.sb a b → X.sb b c → X.sb a c
  rf_value : ∀ w r, X.rf w r → ∃ l v, X.Writes w l v ∧ X.Reads r l v
  rf_unique : ∀ w w' r, X.rf w r → X.rf w' r → w = w'
  rf_total : ∀ r l v, X.Reads r l v → ∃ w, X.rf w r
  mo_writes : ∀ a b, X.mo a b → ∃ l v v', X.Writes a l v ∧ X.Writes b l v'
  mo_irrefl : ∀ a, ¬ X.mo a a
  mo_trans : ∀ a b c, X.mo a b → X.mo b c → X.mo a c
  mo_total : ∀ a b l v v', X.Writes a l v → X.Writes b l v' → a = b ∨ X.mo a b ∨ X.mo b a
  hb_irrefl : ∀ a, ¬ X.HappensBefore a a
  coherence : ∀ a b, X.HappensBefore a b → ¬ X.CoherenceOrdered b a
  atomicity : ∀ w u, X.rf w u → X.Updates u → X.mo w u ∧ ∀ x, X.mo w x → ¬ X.mo x u
  sc_irrefl : ∀ a, ¬ X.sc a a
  sc_trans : ∀ a b c, X.sc a b → X.sc b c → X.sc a c
  sc_total : ∀ a b, X.Fence a → X.Fence b → a = b ∨ X.sc a b ∨ X.sc b a
  fences : ∀ f p q g, X.Fence f → X.Fence g → X.HappensBefore f p → X.CoherenceOrdered p q →
    X.HappensBefore q g → X.sc f g

variable {X : Execution E L V}

theorem happensBefore_of_sb {a b : E} (h : X.sb a b) : X.HappensBefore a b := .single (.inl h)

/-- Two fences between the accesses to two locations: not both sides can miss the
write of the other. -/
theorem Consistent.fence_handshake (hX : X.Consistent) {a f b y g z : E} (hf : X.Fence f)
    (hg : X.Fence g) (haf : X.sb a f) (hfb : X.sb f b) (hyg : X.sb y g) (hgz : X.sb g z)
    (hby : X.CoherenceOrdered b y) : ¬ X.CoherenceOrdered z a := by
  intro hza
  have hfg := hX.fences f b y g hf hg (happensBefore_of_sb hfb) hby (happensBefore_of_sb hyg)
  have hgf := hX.fences g z a f hg hf (happensBefore_of_sb hgz) hza (happensBefore_of_sb haf)
  exact hX.sc_irrefl f (hX.sc_trans _ _ _ hfg hgf)

/-- Writes of one location that happen one before the other are modified in this order. -/
theorem Consistent.mo_of_happensBefore (hX : X.Consistent) {a b : E} {l : L} {v v' : V}
    (ha : X.Writes a l v) (hb : X.Writes b l v') (h : X.HappensBefore a b) : X.mo a b := by
  rcases hX.mo_total a b l v v' ha hb with rfl | hab | hba
  · exact absurd h (hX.hb_irrefl a)
  · exact hab
  · exact absurd (.modified hba) (hX.coherence a b h)

theorem Writes.unique {e : E} {l l' : L} {v v' : V} (h : X.Writes e l v) (h' : X.Writes e l' v') :
    l = l' ∧ v = v' := by
  obtain ⟨a, ha, hw⟩ := h
  obtain ⟨a', ha', hw'⟩ := h'
  obtain rfl := Option.some.inj (ha.symm.trans ha')
  simpa using hw.symm.trans hw'

theorem Reads.unique {e : E} {l l' : L} {v v' : V} (h : X.Reads e l v) (h' : X.Reads e l' v') :
    l = l' ∧ v = v' := by
  obtain ⟨a, ha, hw⟩ := h
  obtain ⟨a', ha', hw'⟩ := h'
  obtain rfl := Option.some.inj (ha.symm.trans ha')
  simpa using hw.symm.trans hw'

theorem Updates.writes_of_reads {e : E} {l : L} {v : V} (h : X.Updates e) (hr : X.Reads e l v) :
    ∃ v', X.Writes e l v' := by
  obtain ⟨l', found, stored, o, he⟩ := h
  obtain ⟨rfl, -⟩ := Reads.unique hr ⟨_, he, rfl⟩
  exact ⟨stored, _, he, rfl⟩

/-- The location that an event writes to. -/
def writesTo (X : Execution E L V) (e : E) : Option L :=
  ((X.access e).bind Access.writes).map Prod.fst

theorem writesTo_iff {e : E} {l : L} : X.writesTo e = some l ↔ ∃ v, X.Writes e l v := by
  simp only [writesTo, Option.map_eq_some_iff, Option.bind_eq_some_iff, Writes]
  constructor
  · rintro ⟨⟨l, v⟩, ⟨a, ha, hw⟩, rfl⟩
    exact ⟨v, a, ha, hw⟩
  · rintro ⟨v, a, ha, hw⟩
    exact ⟨(l, v), ⟨a, ha, hw⟩, rfl⟩

theorem Writes.writesTo {e : E} {l : L} {v : V} (h : X.Writes e l v) : X.writesTo e = some l :=
  writesTo_iff.mpr ⟨v, h⟩

section Counter
open scoped Classical

/-- The updates `e` in `S` up to and including `m`. -/
noncomputable def upTo (X : Execution E L V) (S : Finset E) (m : E) : Finset E :=
  S.filter fun e => e = m ∨ X.mo e m

theorem mem_upTo {S : Finset E} {e m : E} : e ∈ X.upTo S m ↔ e ∈ S ∧ (e = m ∨ X.mo e m) :=
  Finset.mem_filter

/-- An update adds itself to the updates up to the write that it reads from. -/
theorem Consistent.upTo_update (hX : X.Consistent) {S : Finset E} {l : L}
    (hS : ∀ e ∈ S, ∃ v, X.Writes e l v) {m w : E} {v : V} (hm : m ∈ S) (hrf : X.rf w m)
    (hu : X.Updates m) (hw : X.Writes w l v) :
    X.upTo S m = insert m (X.upTo S w) ∧ m ∉ X.upTo S w := by
  obtain ⟨hwm, hnone⟩ := hX.atomicity w m hrf hu
  constructor
  · ext e
    simp only [mem_upTo, Finset.mem_insert]
    constructor
    · rintro ⟨he, rfl | hem⟩
      · exact .inl rfl
      · obtain ⟨v', hv'⟩ := hS e he
        rcases hX.mo_total e w l v' v hv' hw with rfl | hew | hwe
        · exact .inr ⟨he, .inl rfl⟩
        · exact .inr ⟨he, .inr hew⟩
        · exact absurd hem (hnone e hwe)
    · rintro (rfl | ⟨he, rfl | hew⟩)
      · exact ⟨hm, .inl rfl⟩
      · exact ⟨he, .inr hwm⟩
      · exact ⟨he, .inr (hX.mo_trans _ _ _ hew hwm)⟩
  · simp only [mem_upTo, not_and, not_or]
    intro _
    constructor
    · rintro rfl
      exact hX.mo_irrefl m hwm
    · exact fun hmw => hX.mo_irrefl m (hX.mo_trans _ _ _ hmw hwm)

/-- The value of a location that is initialized by `i` and otherwise only updated by
adding: the initial value and what was added up to there in modification order. -/
theorem Consistent.counter_value [AddCommMonoid V] (hX : X.Consistent) {l : L} {i : E} {v₀ : V}
    (δ : E → V) (S : Finset E) (hi : X.Writes i l v₀) (hiS : i ∉ S)
    (hfirst : ∀ e ∈ S, X.mo i e) (hS : ∀ e v, X.Writes e l v → e = i ∨ e ∈ S)
    (hadd : ∀ e ∈ S, ∃ found o, X.access e = some (.update l found (found + δ e) o))
    {m : E} {v : V} (hm : X.Writes m l v) : v = v₀ + ∑ e ∈ X.upTo S m, δ e := by
  have hwrites : ∀ e ∈ S, ∃ v, X.Writes e l v := by
    intro e he
    obtain ⟨found, o, ha⟩ := hadd e he
    exact ⟨_, _, ha, rfl⟩
  induction hn : (X.upTo S m).card using Nat.strong_induction_on generalizing m v with
  | _ n ih =>
    rcases hS m v hm with rfl | hmS
    · have hempty : X.upTo S m = ∅ := by
        refine Finset.filter_eq_empty_iff.mpr fun e he hor => ?_
        rcases hor with rfl | hem
        · exact hiS he
        · exact hX.mo_irrefl m (hX.mo_trans _ _ _ (hfirst e he) hem)
      rw [hempty, Finset.sum_empty, add_zero]
      exact (Writes.unique hm hi).2
    · obtain ⟨found, o, ha⟩ := hadd m hmS
      have hread : X.Reads m l found := ⟨_, ha, rfl⟩
      have hupd : X.Updates m := ⟨_, _, _, _, ha⟩
      obtain ⟨w, hrf⟩ := hX.rf_total m l found hread
      obtain ⟨l', v', hw, hr⟩ := hX.rf_value w m hrf
      obtain ⟨rfl, rfl⟩ := Reads.unique hr hread
      obtain ⟨heq, hnot⟩ := hX.upTo_update hwrites hmS hrf hupd hw
      have hcard : (X.upTo S w).card < n := by
        rw [← hn, heq, Finset.card_insert_of_notMem hnot]
        omega
      have hfound := ih _ hcard hw rfl
      have hv : v = v' + δ m := (Writes.unique hm ⟨_, ha, rfl⟩).2
      rw [hv, heq, Finset.sum_insert hnot, hfound, add_assoc, add_comm (δ m)]

end Counter

/-- The execution of an interleaving: every read returns the latest write. -/
structure Interleaved (X : Execution E L V) (pos : E → ℕ) : Prop where
  injective : Function.Injective pos
  sb : ∀ a b, X.sb a b → pos a < pos b
  sb_trans : ∀ a b c, X.sb a b → X.sb b c → X.sb a c
  sw₀ : ∀ a b, X.sw₀ a b → pos a < pos b
  rf : ∀ w r, X.rf w r → ∃ l v, X.Writes w l v ∧ X.Reads r l v ∧ pos w < pos r ∧
    ∀ w', X.writesTo w' = some l → pos w' < pos r → pos w' ≤ pos w
  rf_total : ∀ r l v, X.Reads r l v → ∃ w, X.rf w r
  mo : ∀ a b, X.mo a b ↔ pos a < pos b ∧ ∃ l, X.writesTo a = some l ∧ X.writesTo b = some l
  sc : ∀ a b, X.sc a b ↔ pos a < pos b ∧ X.Fence a ∧ X.Fence b

section Interleaving
variable {pos : E → ℕ}

theorem Interleaved.releaseSequence (h : X.Interleaved pos) {x w : E}
    (hw : X.ReleaseSequence x w) : pos x ≤ pos w := by
  induction hw with
  | head => exact le_refl _
  | next _ _ hr ih =>
    obtain ⟨l, v, -, -, hlt, -⟩ := h.rf _ _ hr
    omega

theorem Interleaved.happensBefore (h : X.Interleaved pos) {a b : E} (hab : X.HappensBefore a b) :
    pos a < pos b := by
  have hstep : ∀ a b, X.sb a b ∨ X.SynchronizesWith a b → pos a < pos b := by
    rintro a b (hsb | hsw | ⟨x, w, y, hrel, hseq, hrf, hacq⟩)
    · exact h.sb a b hsb
    · exact h.sw₀ a b hsw
    · have hxw := h.releaseSequence hseq
      obtain ⟨l, v, -, -, hwy, -⟩ := h.rf w y hrf
      have hax : pos a ≤ pos x := by
        rcases hrel with ⟨rfl, -⟩ | ⟨-, -, -, hsb⟩
        · exact le_refl _
        · exact (h.sb _ _ hsb).le
      have hyb : pos y ≤ pos b := by
        rcases hacq with ⟨rfl, -⟩ | ⟨-, -, -, hsb⟩
        · exact le_refl _
        · exact (h.sb _ _ hsb).le
      omega
  induction hab with
  | single hab => exact hstep _ _ hab
  | tail _ hbc ih => exact ih.trans (hstep _ _ hbc)

theorem Interleaved.coherenceOrdered (h : X.Interleaved pos) {a b : E}
    (hab : X.CoherenceOrdered a b) : pos a < pos b := by
  induction hab with
  | reads hr =>
    obtain ⟨l, v, -, -, hlt, -⟩ := h.rf _ _ hr
    exact hlt
  | modified hm => exact ((h.mo _ _).mp hm).1
  | @overwritten w a b hr hm hne =>
    obtain ⟨l, v, hw, hra, hlt, hlast⟩ := h.rf _ _ hr
    obtain ⟨hwb, l', hw', hb⟩ := (h.mo _ _).mp hm
    obtain rfl := Option.some.inj (hw.writesTo.symm.trans hw')
    by_contra hle
    have hne' : pos a ≠ pos b := fun he => hne (h.injective he)
    have := hlast b hb (by omega)
    omega
  | trans _ _ ih₁ ih₂ => exact ih₁.trans ih₂

/-- Sequentially consistent interleavings are consistent executions. -/
theorem Interleaved.consistent (h : X.Interleaved pos) : X.Consistent where
  sb_trans := h.sb_trans
  rf_value w r hr := by
    obtain ⟨l, v, hw, hr, -⟩ := h.rf w r hr
    exact ⟨l, v, hw, hr⟩
  rf_unique w w' r hr hr' := by
    obtain ⟨l, v, hw, hra, hlt, hlast⟩ := h.rf w r hr
    obtain ⟨l', v', hw', hra', hlt', hlast'⟩ := h.rf w' r hr'
    obtain ⟨rfl, rfl⟩ := Reads.unique hra hra'
    exact h.injective (le_antisymm (hlast' w hw.writesTo hlt) (hlast w' hw'.writesTo hlt'))
  rf_total := h.rf_total
  mo_writes a b hm := by
    obtain ⟨-, l, ha, hb⟩ := (h.mo a b).mp hm
    obtain ⟨v, hv⟩ := writesTo_iff.mp ha
    obtain ⟨v', hv'⟩ := writesTo_iff.mp hb
    exact ⟨l, v, v', hv, hv'⟩
  mo_irrefl a hm := lt_irrefl _ ((h.mo a a).mp hm).1
  mo_trans a b c hab hbc := by
    obtain ⟨hlt, l, ha, hb⟩ := (h.mo a b).mp hab
    obtain ⟨hlt', l', hb', hc⟩ := (h.mo b c).mp hbc
    obtain rfl := Option.some.inj (hb.symm.trans hb')
    exact (h.mo a c).mpr ⟨hlt.trans hlt', l, ha, hc⟩
  mo_total a b l v v' ha hb := by
    rcases lt_trichotomy (pos a) (pos b) with hlt | he | hlt
    · exact .inr (.inl ((h.mo a b).mpr ⟨hlt, l, ha.writesTo, hb.writesTo⟩))
    · exact .inl (h.injective he)
    · exact .inr (.inr ((h.mo b a).mpr ⟨hlt, l, hb.writesTo, ha.writesTo⟩))
  hb_irrefl a hab := lt_irrefl _ (h.happensBefore hab)
  coherence a b hab hba := lt_asymm (h.happensBefore hab) (h.coherenceOrdered hba)
  atomicity w u hr hu := by
    obtain ⟨l, v, hw, hra, hlt, hlast⟩ := h.rf w u hr
    obtain ⟨v', hwu⟩ := hu.writes_of_reads hra
    refine ⟨(h.mo w u).mpr ⟨hlt, l, hw.writesTo, hwu.writesTo⟩, fun x hwx hxu => ?_⟩
    obtain ⟨hlt₁, l₁, hw₁, hx⟩ := (h.mo w x).mp hwx
    obtain rfl := Option.some.inj (hw.writesTo.symm.trans hw₁)
    have := hlast x hx ((h.mo x u).mp hxu).1
    omega
  sc_irrefl a hs := lt_irrefl _ ((h.sc a a).mp hs).1
  sc_trans a b c hab hbc := by
    obtain ⟨hlt, ha, -⟩ := (h.sc a b).mp hab
    obtain ⟨hlt', -, hc⟩ := (h.sc b c).mp hbc
    exact (h.sc a c).mpr ⟨hlt.trans hlt', ha, hc⟩
  sc_total a b ha hb := by
    rcases lt_trichotomy (pos a) (pos b) with hlt | he | hlt
    · exact .inr (.inl ((h.sc a b).mpr ⟨hlt, ha, hb⟩))
    · exact .inl (h.injective he)
    · exact .inr (.inr ((h.sc b a).mpr ⟨hlt, hb, ha⟩))
  fences f p q g hf hg hfp hpq hqg := by
    have h₁ := h.happensBefore hfp
    have h₂ := h.coherenceOrdered hpq
    have h₃ := h.happensBefore hqg
    exact (h.sc f g).mpr ⟨by omega, hf, hg⟩

end Interleaving

end Execution

end SignalCrates.MemoryModel
