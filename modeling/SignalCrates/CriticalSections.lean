import SignalCrates.MemoryModel

/-!
# Critical sections in the C++20 memory model

A location whose value 0 means that a lock is free. Acquire updates take it from 0,
release updates put it back to 0, and other updates leave it different from 0. If every
release comes after an acquire of its own, the sections between them happen one after
the other.
-/
namespace SignalCrates.MemoryModel.Execution

variable {E L V : Type*} [Zero V]

def Takes (X : Execution E L V) (l : L) (e : E) : Prop :=
  ∃ v o, X.access e = some (.update l 0 v o) ∧ v ≠ 0 ∧ o.acquires = true

def Frees (X : Execution E L V) (l : L) (e : E) : Prop :=
  ∃ found o, X.access e = some (.update l found 0 o) ∧ o.releases = true

def Keeps (X : Execution E L V) (l : L) (e : E) : Prop :=
  ∃ found stored o, X.access e = some (.update l found stored o) ∧ found ≠ 0 ∧ stored ≠ 0

/-- `opens r` is the acquire of the section that `r` ends; `owns a v` says that `v` is a
value of the location while the section of `a` is open. -/
structure LockProtocol (X : Execution E L V) (l : L) (opens : E → E) (owns : E → V → Prop) :
    Prop where
  wf : WellFounded X.mo
  init : ∃ i, X.Writes i l 0 ∧ ∀ e v, X.Writes e l v → e = i ∨
    X.mo i e ∧ (X.Takes l e ∨ X.Keeps l e ∨ X.Frees l e)
  opens_takes : ∀ r, X.Frees l r → X.Takes l (opens r)
  opens_sb : ∀ r, X.Frees l r → X.sb (opens r) r
  opens_injective : ∀ r r', X.Frees l r → X.Frees l r' → opens r = opens r' → r = r'
  owns_takes : ∀ a v, X.Takes l a → X.Writes a l v → owns a v
  owns_keeps : ∀ e found stored o a, X.access e = some (.update l found stored o) →
    found ≠ 0 → stored ≠ 0 → owns a found → owns a stored

variable {X : Execution E L V} {l : L} {opens : E → E} {owns : E → V → Prop}

/-- `a` comes no later than `m` in modification order. -/
def UpTo (X : Execution E L V) (a m : E) : Prop := a = m ∨ X.mo a m

/-- The section of `a` has ended by the modification `m`. -/
def EndedBy (X : Execution E L V) (l : L) (opens : E → E) (m a : E) : Prop :=
  ∃ r, X.Frees l r ∧ opens r = a ∧ X.UpTo r m

/-- Which sections the value at `m` says are open: none, or the one that owns it. -/
def Tells (X : Execution E L V) (l : L) (opens : E → E) (owns : E → V → Prop) (m : E) (v : V) :
    Prop :=
  (v = 0 → ∀ a, X.Takes l a → X.UpTo a m → X.EndedBy l opens m a) ∧
    (v ≠ 0 → ∃ a, X.Takes l a ∧ X.UpTo a m ∧ owns a v ∧ ¬ X.EndedBy l opens m a ∧
      ∀ b, X.Takes l b → X.UpTo b m → b ≠ a → X.EndedBy l opens m b)

omit [Zero V] in
theorem UpTo.trans (hX : X.Consistent) {a m m' : E} (h : X.UpTo a m) (hm : X.mo m m') :
    X.mo a m' := by
  rcases h with rfl | h
  · exact hm
  · exact hX.mo_trans _ _ _ h hm

theorem Takes.writes {e : E} (h : X.Takes l e) : ∃ v, v ≠ 0 ∧ X.Writes e l v := by
  obtain ⟨v, o, ha, hv, -⟩ := h
  exact ⟨v, hv, _, ha, rfl⟩

theorem Takes.reads {e : E} (h : X.Takes l e) : X.Reads e l 0 := by
  obtain ⟨v, o, ha, -, -⟩ := h
  exact ⟨_, ha, rfl⟩

theorem Takes.updates {e : E} (h : X.Takes l e) : X.Updates e := by
  obtain ⟨v, o, ha, -, -⟩ := h
  exact ⟨_, _, _, _, ha⟩

theorem Frees.writes {e : E} (h : X.Frees l e) : X.Writes e l 0 := by
  obtain ⟨found, o, ha, -⟩ := h
  exact ⟨_, ha, rfl⟩

theorem Takes.not_frees {e : E} (h : X.Takes l e) : ¬ X.Frees l e := by
  intro hf
  obtain ⟨v, hv, hw⟩ := h.writes
  exact hv (Writes.unique hw hf.writes).2

omit [Zero V] in
/-- An update reads from the write that comes immediately before it. -/
theorem Consistent.predecessor (hX : X.Consistent) {e : E} {v : V} (hr : X.Reads e l v)
    (hu : X.Updates e) :
    ∃ w, X.rf w e ∧ X.Writes w l v ∧ X.mo w e ∧
      ∀ a v', X.Writes a l v' → (X.mo a e ↔ X.UpTo a w) := by
  obtain ⟨w, hrf⟩ := hX.rf_total e l v hr
  obtain ⟨l', v', hw, hr'⟩ := hX.rf_value w e hrf
  obtain ⟨rfl, rfl⟩ := Reads.unique hr' hr
  obtain ⟨hwe, hnone⟩ := hX.atomicity w e hrf hu
  refine ⟨w, hrf, hw, hwe, fun a v'' ha => ⟨fun hae => ?_, fun haw => haw.trans hX hwe⟩⟩
  rcases hX.mo_total a w l' v'' v' ha hw with rfl | h | h
  · exact .inl rfl
  · exact .inr h
  · exact absurd hae (hnone a h)

/-- `x` is in the section of `a`: not before its acquire and not after its release. -/
def Within (X : Execution E L V) (l : L) (opens : E → E) (a x : E) : Prop :=
  (x = a ∨ X.sb a x) ∧ ∀ r, X.Frees l r → opens r = a → x = r ∨ X.sb x r

/-- `w` comes immediately before `m` among the writes of `l`. -/
def Precedes (X : Execution E L V) (l : L) (w m : E) : Prop :=
  X.mo w m ∧ ∀ a v, X.Writes a l v → (X.mo a m ↔ X.UpTo a w)

namespace LockProtocol

/-- No section is open at an initialization. -/
theorem tells_init (hX : X.Consistent) {i : E} (hi : X.Writes i l 0)
    (hfirst : ∀ e v, X.Writes e l v → e = i ∨
      X.mo i e ∧ (X.Takes l e ∨ X.Keeps l e ∨ X.Frees l e)) : X.Tells l opens owns i 0 := by
  refine ⟨fun _ a ha hai => ?_, fun h => absurd rfl h⟩
  obtain ⟨v, hv, hw⟩ := ha.writes
  rcases hai with rfl | hai
  · exact absurd (Writes.unique hw hi).2 hv
  · rcases hfirst a v hw with rfl | ⟨hia, -⟩
    · exact absurd hai (hX.mo_irrefl _)
    · exact absurd (hX.mo_trans _ _ _ hai hia) (hX.mo_irrefl _)

theorem endedBy_mono (hX : X.Consistent) {w m a : E} (hwm : X.mo w m)
    (h : X.EndedBy l opens w a) : X.EndedBy l opens m a := by
  obtain ⟨r, hr, ho, hrw⟩ := h
  exact ⟨r, hr, ho, .inr (hrw.trans hX hwm)⟩

/-- Nothing but a release ends a section. -/
theorem endedBy_of_not_frees {w m a : E} (hwm : X.Precedes l w m) (hm : ¬ X.Frees l m)
    (h : X.EndedBy l opens m a) : X.EndedBy l opens w a := by
  obtain ⟨r, hr, ho, rfl | hrm⟩ := h
  · exact absurd hr hm
  · exact ⟨r, hr, ho, (hwm.2 r _ hr.writes).mp hrm⟩

theorem upTo_of_precedes {w m b : E} (hwm : X.Precedes l w m) (hb : X.Takes l b)
    (hbm : X.mo b m) : X.UpTo b w := by
  obtain ⟨v, -, hw⟩ := hb.writes
  exact (hwm.2 b v hw).mp hbm

/-- A section does not end before it begins. -/
theorem not_endedBy (hP : X.LockProtocol l opens owns) (hX : X.Consistent) {w m : E}
    (hwm : X.mo w m) (hm : X.Takes l m) : ¬ X.EndedBy l opens w m := by
  rintro ⟨r, hr, rfl, hrw⟩
  obtain ⟨v, -, hw⟩ := hm.writes
  have hmr := hX.mo_of_happensBefore hw hr.writes (happensBefore_of_sb (hP.opens_sb r hr))
  exact hX.mo_irrefl _ (hX.mo_trans _ _ _ hmr (hrw.trans hX hwm))

/-- An acquire opens its own section after all others have ended. -/
theorem tells_takes (hP : X.LockProtocol l opens owns) (hX : X.Consistent) {w m : E} {v : V}
    (hm : X.Writes m l v) (ht : X.Takes l m) (hwm : X.Precedes l w m)
    (hw : X.Tells l opens owns w 0) : X.Tells l opens owns m v := by
  obtain ⟨v', hv', hw'⟩ := ht.writes
  obtain rfl := (Writes.unique hm hw').2
  refine ⟨fun h => absurd h hv', fun _ => ⟨m, ht, .inl rfl, hP.owns_takes m v ht hm, ?_, ?_⟩⟩
  · exact fun h => not_endedBy hP hX hwm.1 ht (endedBy_of_not_frees hwm ht.not_frees h)
  · intro b hb hbm hne
    exact endedBy_mono hX hwm.1
      (hw.1 rfl b hb (upTo_of_precedes hwm hb (hbm.resolve_left hne)))

/-- Another update leaves the open section open. -/
theorem tells_keeps (hP : X.LockProtocol l opens owns) (hX : X.Consistent) {w m : E}
    {found stored : V} {o : MemoryOrder} (ha : X.access m = some (.update l found stored o))
    (hfound : found ≠ 0) (hstored : stored ≠ 0) (hwm : X.Precedes l w m)
    (hw : X.Tells l opens owns w found) : X.Tells l opens owns m stored := by
  have hm : X.Writes m l stored := ⟨_, ha, rfl⟩
  have hnotFrees : ¬ X.Frees l m := fun hf => hstored (Writes.unique hm hf.writes).2
  have hnotTakes : ¬ X.Takes l m := fun ht => hfound (Reads.unique ⟨_, ha, rfl⟩ ht.reads).2
  obtain ⟨a, hta, haw, hown, hopen, hothers⟩ := hw.2 hfound
  refine ⟨fun h => absurd h hstored, fun _ => ⟨a, hta, .inr (haw.trans hX hwm.1),
    hP.owns_keeps _ _ _ _ a ha hfound hstored hown,
    fun h => hopen (endedBy_of_not_frees hwm hnotFrees h), fun b hb hbm hne => ?_⟩⟩
  rcases hbm with rfl | hbm
  · exact absurd hb hnotTakes
  · exact endedBy_mono hX hwm.1 (hothers b hb (upTo_of_precedes hwm hb hbm) hne)

/-- A release finds a value of its own section, which is the only one that is open. -/
theorem owner_of_frees (hP : X.LockProtocol l opens owns) (hX : X.Consistent) {w r : E} {v : V}
    (hr : X.Frees l r) (hwr : X.Precedes l w r) (hw : X.Tells l opens owns w v) :
    v ≠ 0 ∧ owns (opens r) v ∧
      ∀ b, X.Takes l b → X.UpTo b w → b ≠ opens r → X.EndedBy l opens w b := by
  have ht := hP.opens_takes r hr
  obtain ⟨v', -, hw'⟩ := ht.writes
  have hmo := hX.mo_of_happensBefore hw' hr.writes (happensBefore_of_sb (hP.opens_sb r hr))
  have hup := upTo_of_precedes hwr ht hmo
  have hopen : ¬ X.EndedBy l opens w (opens r) := by
    rintro ⟨r', hr', ho, hrw⟩
    obtain rfl := hP.opens_injective r' r hr' hr ho
    exact hX.mo_irrefl _ (hrw.trans hX hwr.1)
  have hv : v ≠ 0 := fun h0 => hopen (hw.1 h0 _ ht hup)
  obtain ⟨a, hta, haw, hown, -, hothers⟩ := hw.2 hv
  have hao : opens r = a := by
    by_contra hne
    exact hopen (hothers _ ht hup hne)
  exact ⟨hv, hao ▸ hown, hao ▸ hothers⟩

theorem tells_frees (hP : X.LockProtocol l opens owns) (hX : X.Consistent) {w m : E} {v : V}
    (hm : X.Frees l m) (hwm : X.Precedes l w m) (hw : X.Tells l opens owns w v) :
    X.Tells l opens owns m 0 := by
  obtain ⟨-, -, hothers⟩ := owner_of_frees hP hX hm hwm hw
  refine ⟨fun _ b hb hbm => ?_, fun h => absurd rfl h⟩
  by_cases hbo : b = opens m
  · exact ⟨m, hm, hbo.symm, .inl rfl⟩
  · rcases hbm with rfl | hbm
    · exact absurd hm hb.not_frees
    · exact endedBy_mono hX hwm.1 (hothers b hb (upTo_of_precedes hwm hb hbm) hbo)

/-- What the location says at each modification, by induction along the modification
order: every update reads what the write before it says. -/
theorem tells (hP : X.LockProtocol l opens owns) (hX : X.Consistent) {m : E} {v : V}
    (hm : X.Writes m l v) : X.Tells l opens owns m v := by
  obtain ⟨i, hi, hfirst⟩ := hP.init
  induction m using hP.wf.induction generalizing v with
  | _ m ih =>
    have hpred (found : V) (hr : X.Reads m l found) (hu : X.Updates m) :
        ∃ w, X.Precedes l w m ∧ X.Tells l opens owns w found := by
      obtain ⟨w, -, hw, hwm, hup⟩ := hX.predecessor hr hu
      exact ⟨w, ⟨hwm, hup⟩, ih w hwm hw⟩
    rcases hfirst m v hm with rfl | ⟨-, htake | ⟨found, stored, o, ha, hfound, hstored⟩ | hfree⟩
    · obtain rfl := (Writes.unique hm hi).2
      exact tells_init hX hi hfirst
    · obtain ⟨w, hwm, hw⟩ := hpred 0 htake.reads htake.updates
      exact tells_takes hP hX hm htake hwm hw
    · obtain ⟨w, hwm, hw⟩ := hpred found ⟨_, ha, rfl⟩ ⟨_, _, _, _, ha⟩
      obtain rfl := (Writes.unique hm ⟨_, ha, rfl⟩).2
      exact tells_keeps hP hX ha hfound hstored hwm hw
    · obtain rfl := (Writes.unique hm hfree.writes).2
      obtain ⟨found, o, ha, ho⟩ := hfree
      obtain ⟨w, hwm, hw⟩ := hpred found ⟨_, ha, rfl⟩ ⟨_, _, _, _, ha⟩
      exact tells_frees hP hX ⟨found, o, ha, ho⟩ hwm hw

/-- Every release finds a value of its own section. -/
theorem frees_reads (hP : X.LockProtocol l opens owns) (hX : X.Consistent) {r : E}
    (hr : X.Frees l r) {v : V} (hv : X.Reads r l v) : v ≠ 0 ∧ owns (opens r) v := by
  obtain ⟨found, o, ha, -⟩ := id hr
  obtain ⟨w, -, hw, hwr, hup⟩ := hX.predecessor hv ⟨_, _, _, _, ha⟩
  obtain ⟨hne, hown, -⟩ := owner_of_frees hP hX hr ⟨hwr, hup⟩ (tells hP hX hw)
  exact ⟨hne, hown⟩

theorem synchronizes {r b : E} (hr : X.Frees l r) (hb : X.Takes l b) (hrf : X.rf r b) :
    X.HappensBefore r b := by
  obtain ⟨found, o, ha, hrel⟩ := hr
  obtain ⟨v, o', ha', -, hacq⟩ := hb
  exact .single (.inr (.inr ⟨r, r, b, .inl ⟨rfl, l, 0, o, .inr ⟨found, ha⟩, hrel⟩, .head, hrf,
    .inl ⟨rfl, l, 0, o', .inr ⟨v, ha'⟩, hacq⟩⟩))

/-- After the initialization only a release writes 0. -/
theorem frees_of_writes_zero (hP : X.LockProtocol l opens owns) (hX : X.Consistent) {r w : E}
    (hr : X.Frees l r) (hrw : X.mo r w) (hw : X.Writes w l 0) : X.Frees l w := by
  obtain ⟨i, hi, hfirst⟩ := hP.init
  rcases hfirst w 0 hw with rfl | ⟨-, h | ⟨found, stored, o, ha, -, hstored⟩ | h⟩
  · rcases hfirst r 0 hr.writes with rfl | ⟨hwr, -⟩
    · exact absurd hrw (hX.mo_irrefl _)
    · exact absurd (hX.mo_trans _ _ _ hrw hwr) (hX.mo_irrefl _)
  · obtain ⟨v, hv, hw'⟩ := h.writes
    exact absurd (Writes.unique hw' hw).2 hv
  · exact absurd (Writes.unique ⟨_, ha, rfl⟩ hw).2 hstored
  · exact h

/-- No other section begins between an acquire and its release. -/
theorem mo_opens (hP : X.LockProtocol l opens owns) (hX : X.Consistent) {a w : E}
    (ha : X.Takes l a) (hw : X.Frees l w) (haw : X.UpTo a w) (hne : a ≠ opens w) :
    X.mo a (opens w) := by
  have htw := hP.opens_takes w hw
  obtain ⟨v, -, hwv⟩ := htw.writes
  obtain ⟨v', -, hav⟩ := ha.writes
  rcases hX.mo_total a (opens w) l v' v hav hwv with h | h | h
  · exact absurd h hne
  · exact h
  · -- then `a` would have been taken while the section that `w` ends was open
    obtain ⟨u, -, hu, hua, hup⟩ := hX.predecessor ha.reads ha.updates
    obtain ⟨r, hr, ho, hru⟩ := (tells hP hX hu).1 rfl _ htw (upTo_of_precedes ⟨hua, hup⟩ htw h)
    obtain rfl := hP.opens_injective r w hr hw ho
    have hra := hru.trans hX hua
    rcases haw with rfl | haw
    · exact absurd hra (hX.mo_irrefl _)
    · exact absurd (hX.mo_trans _ _ _ hra haw) (hX.mo_irrefl _)

/-- A section that is first in modification order ends before the other one begins. -/
theorem happensBefore_of_mo (hP : X.LockProtocol l opens owns) (hX : X.Consistent) {a b : E}
    (ha : X.Takes l a) (hb : X.Takes l b) (hab : X.mo a b) :
    ∃ r, X.Frees l r ∧ opens r = a ∧ X.HappensBefore r b := by
  induction b using hP.wf.induction with
  | _ b ih =>
    -- the acquire reads 0 from a release, which synchronizes with it
    obtain ⟨w, hrf, hw, hwb, hup⟩ := hX.predecessor hb.reads hb.updates
    have haw := upTo_of_precedes ⟨hwb, hup⟩ ha hab
    obtain ⟨r, hr, ho, rfl | hrw⟩ := (tells hP hX hw).1 rfl a ha haw
    · exact ⟨r, hr, ho, synchronizes hr hb hrf⟩
    · -- another section ended last; this one ended before that one began
      have hfree := frees_of_writes_zero hP hX hr hrw hw
      have hsb := hP.opens_sb w hfree
      have htw := hP.opens_takes w hfree
      obtain ⟨v, -, hwv⟩ := htw.writes
      have hmo := hX.mo_of_happensBefore hwv hw (happensBefore_of_sb hsb)
      have hne : a ≠ opens w := by
        rintro rfl
        obtain rfl := hP.opens_injective r w hr hfree ho
        exact hX.mo_irrefl _ hrw
      obtain ⟨r', hr', ho', hhb⟩ :=
        ih (opens w) (hX.mo_trans _ _ _ hmo hwb) htw (mo_opens hP hX ha hfree haw hne)
      exact ⟨r', hr', ho', (hhb.tail (.inl hsb)).trans (synchronizes hfree hb hrf)⟩

/-- Of two sections one has ended before the other begins. -/
theorem sections_ordered (hP : X.LockProtocol l opens owns) (hX : X.Consistent) {a b : E}
    (ha : X.Takes l a) (hb : X.Takes l b) (hne : a ≠ b) :
    (∃ r, X.Frees l r ∧ opens r = a ∧ X.HappensBefore r b) ∨
      ∃ r, X.Frees l r ∧ opens r = b ∧ X.HappensBefore r a := by
  obtain ⟨v, -, hav⟩ := ha.writes
  obtain ⟨v', -, hbv⟩ := hb.writes
  rcases hX.mo_total a b l v v' hav hbv with h | h | h
  · exact absurd h hne
  · exact .inl (happensBefore_of_mo hP hX ha hb h)
  · exact .inr (happensBefore_of_mo hP hX hb ha h)

end LockProtocol

/-- Calls of a lock, of which each takes the location at most once and frees it at most
once, after it has taken it. Events that are `live` are made from the one to the other;
`holds c v` says that `v` is a value of the location while the call `c` has it. -/
structure LockCalls {C : Type*} (X : Execution E L V) (l : L) (call : E → Option C)
    (live : E → Prop) (holds : C → V → Prop) : Prop where
  wf : WellFounded X.mo
  init : ∃ i, X.Writes i l 0 ∧ ∀ e v, X.Writes e l v → e = i ∨
    X.mo i e ∧ (X.Takes l e ∨ X.Keeps l e ∨ X.Frees l e)
  sb_total : ∀ d e c, call d = some c → call e = some c → d = e ∨ X.sb d e ∨ X.sb e d
  takes_live : ∀ a, X.Takes l a → live a
  frees_live : ∀ r, X.Frees l r → live r
  live_takes : ∀ e, live e →
    ∃ a c, X.Takes l a ∧ call a = some c ∧ call e = some c ∧ (e = a ∨ X.sb a e)
  takes_once : ∀ a b c, X.Takes l a → X.Takes l b → call a = some c → call b = some c →
    ¬ X.sb a b
  not_freed : ∀ r e c, X.Frees l r → live e → call r = some c → call e = some c → ¬ X.sb r e
  holds_takes : ∀ a c v, X.Takes l a → call a = some c → X.Writes a l v → holds c v
  holds_keeps : ∀ e found stored o c, X.access e = some (.update l found stored o) →
    found ≠ 0 → stored ≠ 0 → holds c found → holds c stored

namespace LockCalls
variable {C : Type*} {call : E → Option C} {live : E → Prop} {holds : C → V → Prop}

open scoped Classical in
/-- The event that took the location in the call of `r`. -/
noncomputable def taker (X : Execution E L V) (l : L) (call : E → Option C) (r : E) : E :=
  if h : ∃ a c, X.Takes l a ∧ call a = some c ∧ call r = some c then h.choose else r

theorem takes_unique (hC : X.LockCalls l call live holds) {a b : E} {c : C} (ha : X.Takes l a)
    (hb : X.Takes l b) (hca : call a = some c) (hcb : call b = some c) : a = b := by
  rcases hC.sb_total a b c hca hcb with h | h | h
  · exact h
  · exact absurd h (hC.takes_once a b c ha hb hca hcb)
  · exact absurd h (hC.takes_once b a c hb ha hcb hca)

theorem taker_eq (hC : X.LockCalls l call live holds) {a r : E} {c : C} (ha : X.Takes l a)
    (hca : call a = some c) (hcr : call r = some c) : taker X l call r = a := by
  have h : ∃ a c, X.Takes l a ∧ call a = some c ∧ call r = some c := ⟨a, c, ha, hca, hcr⟩
  obtain ⟨c', ht, hc', hr⟩ := h.choose_spec
  obtain rfl := Option.some.inj (hr.symm.trans hcr)
  rw [taker, dif_pos h, hC.takes_unique ht ha hc' hca]

/-- A call frees what it has taken before. -/
theorem of_frees (hC : X.LockCalls l call live holds) {r : E} (hr : X.Frees l r) :
    ∃ a c, X.Takes l a ∧ call a = some c ∧ call r = some c ∧ X.sb a r ∧
      taker X l call r = a := by
  obtain ⟨a, c, ha, hca, hcr, hsb⟩ := hC.live_takes r (hC.frees_live r hr)
  refine ⟨a, c, ha, hca, hcr, hsb.resolve_left ?_, hC.taker_eq ha hca hcr⟩
  rintro rfl
  exact ha.not_frees hr

theorem frees_unique (hC : X.LockCalls l call live holds) {r r' : E} {c : C} (hr : X.Frees l r)
    (hr' : X.Frees l r') (hcr : call r = some c) (hcr' : call r' = some c) : r = r' := by
  rcases hC.sb_total r r' c hcr hcr' with h | h | h
  · exact h
  · exact absurd h (hC.not_freed r r' c hr (hC.frees_live r' hr') hcr hcr')
  · exact absurd h (hC.not_freed r' r c hr' (hC.frees_live r hr) hcr' hcr)

theorem lockProtocol (hC : X.LockCalls l call live holds) :
    X.LockProtocol l (taker X l call) fun a v => ∃ c, call a = some c ∧ holds c v where
  wf := hC.wf
  init := hC.init
  opens_takes r hr := by
    obtain ⟨a, c, ha, -, -, -, ho⟩ := hC.of_frees hr
    rwa [ho]
  opens_sb r hr := by
    obtain ⟨a, c, -, -, -, hsb, ho⟩ := hC.of_frees hr
    rwa [ho]
  opens_injective r r' hr hr' ho := by
    obtain ⟨a, c, -, hca, hcr, -, hoa⟩ := hC.of_frees hr
    obtain ⟨a', c', -, hca', hcr', -, hoa'⟩ := hC.of_frees hr'
    obtain rfl := hoa.symm.trans (ho.trans hoa')
    obtain rfl := Option.some.inj (hca.symm.trans hca')
    exact hC.frees_unique hr hr' hcr hcr'
  owns_takes a v ha hv := by
    obtain ⟨-, c, -, -, hc, -⟩ := hC.live_takes a (hC.takes_live a ha)
    exact ⟨c, hc, hC.holds_takes a c v ha hc hv⟩
  owns_keeps e found stored o a ha hfound hstored := by
    rintro ⟨c, hc, hholds⟩
    exact ⟨c, hc, hC.holds_keeps e found stored o c ha hfound hstored hholds⟩

theorem within (hC : X.LockCalls l call live holds) {a e : E} {c : C} (ha : X.Takes l a)
    (he : live e) (hca : call a = some c) (hce : call e = some c) :
    X.Within l (taker X l call) a e := by
  constructor
  · obtain ⟨a', c', ha', hca', hce', hsb⟩ := hC.live_takes e he
    obtain rfl := Option.some.inj (hce'.symm.trans hce)
    obtain rfl := hC.takes_unique ha' ha hca' hca
    exact hsb
  · intro r hr ho
    obtain ⟨a', c', -, hca', hcr, -, ho'⟩ := hC.of_frees hr
    obtain rfl := ho'.symm.trans ho
    obtain rfl := Option.some.inj (hca'.symm.trans hca)
    rcases hC.sb_total e r _ hce hcr with h | h | h
    · exact .inl h
    · exact .inr h
    · exact absurd h (hC.not_freed r e _ hr he hcr hce)

/-- A call frees the location while it has a value of that call. -/
theorem frees_holds (hC : X.LockCalls l call live holds) (hX : X.Consistent) {r : E} {c : C}
    {v : V} (hr : X.Frees l r) (hc : call r = some c) (hv : X.Reads r l v) : holds c v := by
  obtain ⟨a, c', -, hca, hcr, -, ho⟩ := hC.of_frees hr
  obtain ⟨-, d, hd, hholds⟩ := hC.lockProtocol.frees_reads hX hr hv
  rw [ho] at hd
  obtain rfl := Option.some.inj (hcr.symm.trans hc)
  obtain rfl := Option.some.inj (hd.symm.trans hca)
  exact hholds

end LockCalls

end SignalCrates.MemoryModel.Execution
