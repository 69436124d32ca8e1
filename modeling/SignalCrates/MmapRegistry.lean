import SignalCrates.Mmapcatch
import SignalCrates.TransitionSystem

/-!
# The registry and the live guards

The entries of `ROOT` are the live guards, their ranges do not meet, and so the last entry
that starts before the end of a range tells whether the range is free.
-/
namespace SignalCrates.Mmapcatch
open TransitionSystem

/-- The addresses of a range. -/
def range (addr len : Usize) : Set ℕ := Set.Ico addr.toNat (addr.toNat + len.toNat)

def Mapping.range (m : Mapping) : Set ℕ := Mmapcatch.range m.start m.len

def Registration.range (reg : Registration) : Set ℕ := Mmapcatch.range reg.guard.addr reg.len

/-- The range is not empty and its end does not overflow. -/
def Fits (addr len : Usize) : Prop := 1 ≤ len ∧ addr.toNat + len.toNat < 2 ^ 64

section Fits
variable {addr len addr' len' : Usize}

theorem Fits.toNat_add (h : Fits addr len) : (addr + len).toNat = addr.toNat + len.toNat := by
  rw [BitVec.toNat_add, Nat.mod_eq_of_lt h.2]

theorem Fits.one_le (h : Fits addr len) : 1 ≤ len.toNat := by
  have hlen := h.1
  bv_omega

theorem Fits.lt (h : Fits addr len) : addr < addr + len := by
  have hadd := h.toNat_add
  have hlen := h.one_le
  rw [BitVec.lt_def]
  omega

theorem Fits.le_last_iff (h : Fits addr len) {x : Usize} :
    x ≤ addr + len - 1 ↔ x < addr + len := by
  have hadd := h.toNat_add
  have hlen := h.one_le
  generalize addr + len = stop at hadd ⊢
  bv_omega

theorem Fits.mem_range (h : Fits addr len) {a : Usize} :
    a.toNat ∈ range addr len ↔ addr ≤ a ∧ a < addr + len := by
  rw [range, Set.mem_Ico, BitVec.le_def, BitVec.lt_def, h.toNat_add]

theorem Fits.meets_iff (h : Fits addr len) (h' : Fits addr' len') :
    ¬ Disjoint (range addr len) (range addr' len') ↔ addr < addr' + len' ∧ addr' < addr + len := by
  have hlen := h.one_le
  have hlen' := h'.one_le
  rw [range, range, Set.Ico_disjoint_Ico, BitVec.lt_def, BitVec.lt_def, h.toNat_add, h'.toNat_add]
  omega

end Fits

/-- The end of an entry's range. -/
def stop (e : Usize × Mapping) : Usize := e.1 + e.2.len

structure Root.Sound (r : Root) : Prop where
  key : ∀ e ∈ r.map.entries, e.1 = e.2.start
  fits : ∀ e ∈ r.map.entries, Fits e.1 e.2.len
  separated : r.map.Separated stop

theorem Root.sound_new : Root.new.Sound where
  key _ h := absurd h List.not_mem_nil
  fits _ h := absurd h List.not_mem_nil
  separated := ⟨fun _ h => absurd h List.not_mem_nil, fun _ h => absurd h List.not_mem_nil⟩

section Root
variable {r : Root} {addr len : Usize} {m : Mapping}

theorem Root.Sound.meets_iff (h : r.Sound) (hf : Fits addr len) {e : Usize × Mapping}
    (he : e ∈ r.map.entries) :
    ¬ Disjoint (Mmapcatch.range addr len) e.2.range ↔ addr < stop e ∧ e.1 < addr + len := by
  rw [Mapping.range, ← h.key e he, hf.meets_iff (h.fits e he)]
  rfl

theorem Root.lookupOverlap_eq_some_iff (hf : Fits addr len) :
    r.lookupOverlap addr len = some m ↔
      ∃ e, r.map.lastLE (addr + len - 1) = some e ∧ addr < stop e ∧ e.2 = m := by
  simp only [lookupOverlap, Option.map_eq_some_iff, Option.filter_eq_some_iff, decide_eq_true_eq]
  constructor
  · rintro ⟨e, ⟨he, hlt, -⟩, rfl⟩
    exact ⟨e, he, hlt, rfl⟩
  · rintro ⟨e, he, hlt, rfl⟩
    exact ⟨e, ⟨he, hlt, hf.le_last_iff.mp (OrderedMap.of_lastLE he).2.1⟩, rfl⟩

/-- The entry that `lookup_overlap` finds meets the range. -/
theorem Root.Sound.of_lookupOverlap (h : r.Sound) (hf : Fits addr len)
    (hm : r.lookupOverlap addr len = some m) :
    ∃ e ∈ r.map.entries, e.2 = m ∧ ¬ Disjoint (Mmapcatch.range addr len) m.range := by
  obtain ⟨e, he, hlt, rfl⟩ := (lookupOverlap_eq_some_iff hf).mp hm
  obtain ⟨hem, hle, -⟩ := OrderedMap.of_lastLE he
  exact ⟨e, hem, rfl, (h.meets_iff hf hem).mpr ⟨hlt, hf.le_last_iff.mp hle⟩⟩

/-- `lookup_overlap` finds nothing only if no entry meets the range. -/
theorem Root.Sound.lookupOverlap_eq_none_iff (h : r.Sound) (hf : Fits addr len) :
    r.lookupOverlap addr len = none ↔
      ∀ e ∈ r.map.entries, Disjoint (Mmapcatch.range addr len) e.2.range := by
  constructor
  · intro hnone e he
    by_contra hmeet
    obtain ⟨hlt, hlt'⟩ := (h.meets_iff hf he).mp hmeet
    obtain ⟨d, hd, hdlt⟩ := h.separated.exists_iff.mp ⟨e, he, hf.le_last_iff.mpr hlt', hlt⟩
    have hsome := (lookupOverlap_eq_some_iff hf).mpr ⟨d, hd, hdlt, rfl⟩
    rw [hnone] at hsome
    cases hsome
  · intro hall
    by_contra hne
    obtain ⟨m, hm⟩ := Option.ne_none_iff_exists'.mp hne
    obtain ⟨e, he, rfl, hmeet⟩ := h.of_lookupOverlap hf hm
    exact hmeet (hall e he)

theorem Root.Sound.lookupAddr_eq_some_iff (h : r.Sound) {a : Usize} :
    r.lookupAddr a = some m ↔ ∃ e ∈ r.map.entries, e.2 = m ∧ a.toNat ∈ m.range := by
  have hmem : ∀ e ∈ r.map.entries, a.toNat ∈ e.2.range ↔ e.1 ≤ a ∧ a < stop e := by
    intro e he
    rw [Mapping.range, ← h.key e he, (h.fits e he).mem_range]
    rfl
  simp only [lookupAddr, Option.map_eq_some_iff, Option.filter_eq_some_iff, decide_eq_true_eq]
  constructor
  · rintro ⟨e, ⟨he, hin⟩, rfl⟩
    have hem := (OrderedMap.of_lastLE he).1
    exact ⟨e, hem, rfl, (hmem e hem).mpr hin⟩
  · rintro ⟨e, he, rfl, hin⟩
    have hin := (hmem e he).mp hin
    exact ⟨e, ⟨h.separated.lastLE_eq he hin.1 hin.2, hin⟩, rfl⟩

theorem Root.Sound.insert (h : r.Sound) (hf : Fits addr len)
    (hnone : r.lookupOverlap addr len = none) {prot : CInt} {state : StateId} :
    Root.Sound { r with map := r.map.insert addr ⟨addr, len, prot, state⟩ } where
  key e he := by
    rcases OrderedMap.mem_insert.mp he with rfl | ⟨he, -⟩
    · rfl
    · exact h.key e he
  fits e he := by
    rcases OrderedMap.mem_insert.mp he with rfl | ⟨he, -⟩
    · exact hf
    · exact h.fits e he
  separated := by
    refine h.separated.insert hf.lt fun e he => ?_
    have hdis := (h.lookupOverlap_eq_none_iff hf).mp hnone e he
    by_contra hmeet
    obtain ⟨hlt, hlt'⟩ := not_or.mp hmeet
    exact (h.meets_iff hf he).mpr ⟨not_le.mp hlt, not_le.mp hlt'⟩ hdis

theorem Root.Sound.erase (h : r.Sound) {k : Usize} :
    Root.Sound { r with map := r.map.erase k } where
  key e he := h.key e (OrderedMap.mem_erase.mp he).1
  fits e he := h.fits e (OrderedMap.mem_erase.mp he).1
  separated := h.separated.erase

/-- A free range has no entry under its start. -/
theorem Root.Sound.ne_key (h : r.Sound) (hf : Fits addr len)
    (hnone : r.lookupOverlap addr len = none) : ∀ e ∈ r.map.entries, e.1 ≠ addr := by
  rintro e he rfl
  have hdis := (h.lookupOverlap_eq_none_iff hf).mp hnone e he
  exact (h.meets_iff hf he).mpr ⟨(h.fits e he).lt, hf.lt⟩ hdis

end Root

/-- The calls of the clients. A thread that created `ROOT` may be overtaken before it locks. -/
inductive Label
  | init (created : Except PipeNewError Unit)
  | registerMmap (created : Except PipeNewError Unit) (addr len : Usize) (prot : CInt)
    (state : StateId)
  | drop (created : Except PipeNewError Unit) (i : ℕ)

def Registry.init (created : Except PipeNewError Unit) (w : Registry) : Registry :=
  match getOrInit created w.root with
  | .ok r => { w with root := some r }
  | .error _ => w

/-- A new allocation is one that no `Arc` refers to. -/
def Registry.next (w : Registry) : Label → Option Registry
  | .init created => some (w.init created)
  | .registerMmap created addr len prot state =>
    if state ∈ w.arcs then none else some (w.registerMmap created addr len prot state).2
  | .drop created i => (w.drop created i).map Prod.snd

def system : System Registry Label where
  initial w := w.root = none ∧ w.live = []
  next := Registry.next

/-- Runs that register ranges that fit. -/
def fits (_ : Registry) : Label → Prop
  | .registerMmap _ addr len _ _ => Fits addr len
  | _ => True

/-- The entries are the live guards, and nothing went wrong so far. -/
structure Registry.Sound (w : Registry) : Prop where
  clean : ∀ r, w.root = some r → r.cleanlyUnlocked = true
  root : ∀ r, w.root = some r → r.Sound
  guards : w.entries.Perm (w.live.map Registration.entry)
  states : (w.live.map fun reg => reg.guard.state).Nodup

section Registry
variable {w : Registry} {α : Type*} {created : Except PipeNewError Unit} {addr len : Usize}
  {prot : CInt} {state : StateId}

theorem Registry.entries_none (h : w.root = none) : w.entries = [] := by
  rw [entries, h]
  rfl

theorem Registry.entries_some {r : Root} (h : w.root = some r) : w.entries = r.map.entries := by
  rw [entries, h]
  rfl

theorem getOrInit_ok {root : Option Root} {r : Root} (h : getOrInit created root = .ok r) :
    root = some r ∨ root = none ∧ r = Root.new := by
  cases root with
  | some r₀ =>
    cases h
    exact .inl rfl
  | none =>
    cases created with
    | error e => cases h
    | ok u =>
      cases h
      exact .inr ⟨rfl, rfl⟩

theorem getOrInit_error {root : Option Root} {e : PipeNewError}
    (h : getOrInit created root = .error e) : root = none := by
  cases root with
  | none => rfl
  | some r => cases h

theorem Registry.Sound.getOrInit (h : w.Sound) {r : Root}
    (hr : Mmapcatch.getOrInit created w.root = .ok r) :
    r.cleanlyUnlocked = true ∧ r.Sound ∧ r.map.entries = w.entries := by
  rcases getOrInit_ok hr with hroot | ⟨hroot, rfl⟩
  · exact ⟨h.clean r hroot, h.root r hroot, (Registry.entries_some hroot).symm⟩
  · exact ⟨rfl, Root.sound_new, (Registry.entries_none hroot).symm⟩

/-- A section that returns leaves `ROOT` clean. -/
theorem withRoot_returned {f : Root → Outcome α × Root} {root : Option Root} {r r' : Root} {a : α}
    (hr : getOrInit created root = .ok r) (hc : r.cleanlyUnlocked = true)
    (hf : f { r with cleanlyUnlocked := false } = (.returned a, r')) :
    withRoot created f root =
      (.returned (.ok a), some { r' with cleanlyUnlocked := true }) := by
  simp [withRoot, hr, hc, hf]

/-- The three ways a call of `register_mmap` ends. -/
theorem Registry.Sound.registerMmap_cases (h : w.Sound) (created : Except PipeNewError Unit)
    (addr len : Usize) (prot : CInt) (state : StateId) :
    (∃ e, w.registerMmap created addr len prot state =
      (.returned (.error (.fromPipeNewError e)), w) ∧ w.root = none) ∨
    (∃ r m, w.root = some r ∧ r.lookupOverlap addr len = some m ∧
      w.registerMmap created addr len prot state =
        (.returned (.error (.overlap m.start m.len)), w)) ∨
    ∃ r, Mmapcatch.getOrInit created w.root = .ok r ∧ r.lookupOverlap addr len = none ∧
      w.registerMmap created addr len prot state = (.returned (.ok ⟨addr, state⟩),
        ⟨some { r with map := r.map.insert addr ⟨addr, len, prot, state⟩ },
          Function.update w.heap state State.new, ⟨⟨addr, state⟩, len, prot⟩ :: w.live⟩) := by
  cases hr : Mmapcatch.getOrInit created w.root with
  | error e =>
    refine .inl ⟨e, ?_, getOrInit_error hr⟩
    simp [Registry.registerMmap, Mmapcatch.registerMmap, withRoot, hr]
  | ok r =>
    obtain ⟨hc, -, -⟩ := h.getOrInit hr
    have hset : ({ r with cleanlyUnlocked := true } : Root) = r := by rw [← hc]
    cases hm : r.lookupOverlap addr len with
    | some m =>
      have hsec : Root.register addr len prot state { r with cleanlyUnlocked := false } =
          (.returned (.error (.overlap m.start m.len)), { r with cleanlyUnlocked := false }) := by
        have hm' : Root.lookupOverlap { r with cleanlyUnlocked := false } addr len = some m := hm
        simp [Root.register, hm']
      have hroot : w.root = some r := by
        refine (getOrInit_ok hr).resolve_right ?_
        rintro ⟨-, rfl⟩
        cases hm
      refine .inr (.inl ⟨r, m, hroot, hm, ?_⟩)
      simp [Registry.registerMmap, Mmapcatch.registerMmap, withRoot_returned hr hc hsec, hset,
        ← hroot]
    | none =>
      have hsec : Root.register addr len prot state { r with cleanlyUnlocked := false } =
          (.returned (.ok ⟨addr, state⟩),
            ⟨r.map.insert addr ⟨addr, len, prot, state⟩, false⟩) := by
        have hm' : Root.lookupOverlap { r with cleanlyUnlocked := false } addr len = none := hm
        simp [Root.register, hm']
      refine .inr (.inr ⟨r, rfl, hm, ?_⟩)
      simp [Registry.registerMmap, Mmapcatch.registerMmap, withRoot_returned hr hc hsec, ← hc]

theorem Registry.Sound.drop_cases (h : w.Sound) (created : Except PipeNewError Unit) {i : ℕ}
    {reg : Registration} (hi : w.live[i]? = some reg) :
    ∃ r, w.root = some r ∧ reg.entry ∈ r.map.entries ∧ w.drop created i = some (.returned (),
      { w with
        root := some { r with map := r.map.erase reg.guard.addr }
        live := w.live.eraseIdx i }) := by
  have hmem : reg.entry ∈ w.entries :=
    h.guards.mem_iff.mpr (List.mem_map_of_mem (List.mem_of_getElem? hi))
  cases hroot : w.root with
  | none =>
    rw [Registry.entries_none hroot] at hmem
    cases hmem
  | some r =>
    rw [Registry.entries_some hroot] at hmem
    refine ⟨r, rfl, hmem, ?_⟩
    have hlookup : r.map.get? reg.guard.addr = some reg.entry.2 :=
      OrderedMap.get?_eq_some_iff.mpr hmem
    have hsec : Root.unregister reg.guard { r with cleanlyUnlocked := false } =
        (.returned reg.entry.2, ⟨r.map.erase reg.guard.addr, false⟩) := by
      simp [Root.unregister, hlookup, Registration.entry]
    have hc := h.clean r hroot
    have hget : Mmapcatch.getOrInit created (some r) = .ok r := rfl
    have hwith := withRoot_returned hget hc hsec
    simp [Registry.drop, hi, Guard.drop, hroot, hwith, hc]

theorem Registry.Sound.init (h : w.Sound) : (w.init created).Sound := by
  cases hr : Mmapcatch.getOrInit created w.root with
  | error e =>
    rw [Registry.init, hr]
    exact h
  | ok r =>
    obtain ⟨hc, hs, hentries⟩ := h.getOrInit hr
    rw [Registry.init, hr]
    have hguards : r.map.entries.Perm (w.live.map Registration.entry) := by
      rw [hentries]
      exact h.guards
    exact ⟨by rintro _ ⟨⟩; exact hc, by rintro _ ⟨⟩; exact hs, hguards, h.states⟩

theorem Registry.Sound.insert (h : w.Sound) (hf : Fits addr len) (hfresh : state ∉ w.arcs)
    {r : Root} (hr : Mmapcatch.getOrInit created w.root = .ok r)
    (hnone : r.lookupOverlap addr len = none) {heap : StateId → State} :
    Registry.Sound ⟨some { r with map := r.map.insert addr ⟨addr, len, prot, state⟩ }, heap,
      ⟨⟨addr, state⟩, len, prot⟩ :: w.live⟩ := by
  obtain ⟨hc, hs, hentries⟩ := h.getOrInit hr
  have hperm := OrderedMap.perm_insert (v := ⟨addr, len, prot, state⟩) (hs.ne_key hf hnone)
  rw [hentries] at hperm
  have hnew : state ∉ w.live.map fun reg => reg.guard.state := fun hm =>
    hfresh (List.mem_append_right _ hm)
  exact
    { clean := by rintro _ ⟨⟩; exact hc
      root := by rintro _ ⟨⟩; exact hs.insert hf hnone
      guards := hperm.trans (h.guards.cons _)
      states := List.nodup_cons.mpr ⟨hnew, h.states⟩ }

/-- A dropped guard takes its own entry along. -/
theorem Registry.erase_perm {r : Root} (hr : w.root = some r) {reg : Registration}
    (hmem : reg.entry ∈ r.map.entries) :
    w.entries.Perm (reg.entry :: (r.map.erase reg.guard.addr).entries) := by
  rw [entries_some hr]
  exact OrderedMap.perm_erase hmem

theorem Registry.Sound.erase (h : w.Sound) {r : Root} (hr : w.root = some r) {i : ℕ}
    {reg : Registration} (hi : w.live[i]? = some reg) (hmem : reg.entry ∈ r.map.entries) :
    Registry.Sound { w with
      root := some { r with map := r.map.erase reg.guard.addr }
      live := w.live.eraseIdx i } := by
  have hlive : w.live.Perm (reg :: w.live.eraseIdx i) := by
    obtain ⟨hlt, rfl⟩ := List.getElem?_eq_some_iff.mp hi
    exact (List.getElem_cons_eraseIdx_perm hlt).symm
  have hguards := ((Registry.erase_perm hr hmem).symm.trans h.guards).trans (hlive.map _)
  have hstates := ((hlive.map fun reg => reg.guard.state).nodup_iff).mp h.states
  exact
    { clean := by rintro _ ⟨⟩; exact h.clean r hr
      root := by rintro _ ⟨⟩; exact (h.root r hr).erase
      guards := hguards.cons_inv
      states := (List.nodup_cons.mp hstates).2 }

end Registry

theorem sound_next {w w' : Registry} {l : Label} (h : w.Sound) (hl : fits w l)
    (hn : w.next l = some w') : w'.Sound := by
  cases l with
  | init created =>
    cases hn
    exact h.init
  | registerMmap created addr len prot state =>
    simp only [Registry.next] at hn
    split_ifs at hn with hfresh
    cases hn
    rcases h.registerMmap_cases created addr len prot state with
      ⟨e, he, -⟩ | ⟨r, m, -, -, he⟩ | ⟨r, hr, hnone, he⟩
    · rw [he]
      exact h
    · rw [he]
      exact h
    · rw [he]
      exact h.insert hl hfresh hr hnone
  | drop created i =>
    simp only [Registry.next, Option.map_eq_some_iff] at hn
    obtain ⟨p, hp, rfl⟩ := hn
    cases hi : w.live[i]? with
    | none => simp [Registry.drop, hi] at hp
    | some reg =>
      obtain ⟨r, hr, hmem, he⟩ := h.drop_cases created hi
      rw [he] at hp
      cases hp
      exact h.erase hr hi hmem

theorem sound_of_reach {w : Registry} (h : Reach system fits w) : w.Sound := by
  refine h.invariant ?_ ?_
  · rintro w ⟨hroot, hlive⟩
    have hnone : ∀ r, w.root ≠ some r := fun r hr => by simp [hroot] at hr
    have hguards : w.entries.Perm (w.live.map Registration.entry) := by
      rw [Registry.entries_none hroot, hlive]
      exact .nil
    have hstates : (w.live.map fun reg => reg.guard.state).Nodup := by
      rw [hlive]
      exact .nil
    exact ⟨fun r hr => absurd hr (hnone r), fun r hr => absurd hr (hnone r), hguards, hstates⟩
  · exact fun w l w' _ hI hl hn => sound_next hI hl hn

/-- What the registry looks like between two calls. -/
structure Registry.Exact (w : Registry) : Prop where
  clean : ∀ r, w.root = some r → r.cleanlyUnlocked = true
  key : ∀ e ∈ w.entries, e.1 = e.2.start
  disjoint : w.entries.Pairwise fun e e' => Disjoint e.2.range e'.2.range
  guards : w.entries.Perm (w.live.map Registration.entry)
  states : (w.live.map fun reg => reg.guard.state).Nodup

/-- What a call of `register_mmap` answers and leaves. -/
structure RegisterExact (w : Registry) (addr len : Usize) (prot : CInt) (state : StateId)
    (res : Outcome (Except RegisterError Guard)) (w' : Registry) : Prop where
  returns : ∀ msg, res ≠ .panicked msg
  overlap_iff : (∃ a l, res = .returned (.error (.overlap a l))) ↔
    ∃ reg ∈ w.live, ¬ Disjoint (range addr len) reg.range
  reported : ∀ a l, res = .returned (.error (.overlap a l)) →
    ∃ e ∈ w.entries, e.2.start = a ∧ e.2.len = l ∧ ¬ Disjoint (range addr len) e.2.range
  rejected : ∀ e, res = .returned (.error e) → w' = w
  accepted : ∀ g, res = .returned (.ok g) → g = ⟨addr, state⟩ ∧
    w'.live = ⟨g, len, prot⟩ :: w.live ∧ w'.heap = Function.update w.heap state State.new

/-- What the drop of the `i`th live guard does. -/
structure DropExact (w : Registry) (i : ℕ) (reg : Registration) (res : Outcome Unit)
    (w' : Registry) : Prop where
  returns : res = .returned ()
  removed : w.entries.Perm (reg.entry :: w'.entries)
  live : w'.live = w.live.eraseIdx i
  heap : w'.heap = w.heap

theorem Registry.Sound.exact {w : Registry} (h : w.Sound) : w.Exact where
  clean := h.clean
  key e he := by
    obtain ⟨reg, -, rfl⟩ := List.mem_map.mp (h.guards.mem_iff.mp he)
    rfl
  disjoint := by
    cases hroot : w.root with
    | none =>
      rw [Registry.entries_none hroot]
      exact .nil
    | some r =>
      have hs := h.root r hroot
      rw [Registry.entries_some hroot]
      refine r.map.sorted.imp_of_mem fun {e e'} he he' hlt => ?_
      by_contra hmeet
      rw [Mapping.range, ← hs.key e he] at hmeet
      have hlt' := ((hs.meets_iff (hs.fits e he) he').mp hmeet).2
      exact absurd (hs.separated.disjoint e he e' he' hlt) (not_le.mpr hlt')
  guards := h.guards
  states := h.states

theorem Registry.Sound.registerExact {w : Registry} (h : w.Sound)
    (created : Except PipeNewError Unit) {addr len : Usize} (prot : CInt) (state : StateId)
    (hf : Fits addr len) :
    RegisterExact w addr len prot state (w.registerMmap created addr len prot state).1
      (w.registerMmap created addr len prot state).2 := by
  have hmeets : (∃ reg ∈ w.live, ¬ Disjoint (range addr len) reg.range) ↔
      ∃ e ∈ w.entries, ¬ Disjoint (range addr len) e.2.range := by
    simp only [h.guards.mem_iff, List.mem_map, exists_exists_and_eq_and]
    rfl
  rcases h.registerMmap_cases created addr len prot state with
    ⟨e, he, hroot⟩ | ⟨r, m, hr, hm, he⟩ | ⟨r, hr, hnone, he⟩
  · rw [he]
    have hnil : w.entries = [] := Registry.entries_none hroot
    exact
      { returns := by rintro msg ⟨⟩
        overlap_iff := by
          rw [hmeets, hnil]
          constructor
          · rintro ⟨a, l, ha⟩
            cases e <;> cases ha
          · rintro ⟨e, he, -⟩
            cases he
        reported := by rintro a l ha; cases e <;> cases ha
        rejected := fun _ _ => rfl
        accepted := by rintro g ⟨⟩ }
  · rw [he]
    obtain ⟨e, hmem, rfl, hmeet⟩ := (h.root r hr).of_lookupOverlap hf hm
    rw [← Registry.entries_some hr] at hmem
    exact
      { returns := by rintro msg ⟨⟩
        overlap_iff := by
          rw [hmeets]
          exact ⟨fun _ => ⟨e, hmem, hmeet⟩, fun _ => ⟨_, _, rfl⟩⟩
        reported := by
          rintro _ _ ⟨⟩
          exact ⟨e, hmem, rfl, rfl, hmeet⟩
        rejected := fun _ _ => rfl
        accepted := by rintro g ⟨⟩ }
  · rw [he]
    obtain ⟨-, hs, hentries⟩ := h.getOrInit hr
    have hfree := (hs.lookupOverlap_eq_none_iff hf).mp hnone
    exact
      { returns := by rintro msg ⟨⟩
        overlap_iff := by
          rw [hmeets, ← hentries]
          constructor
          · rintro ⟨a, l, ⟨⟩⟩
          · rintro ⟨e, he, hmeet⟩
            exact absurd (hfree e he) hmeet
        reported := by rintro a l ⟨⟩
        rejected := by rintro e ⟨⟩
        accepted := by
          rintro g ⟨⟩
          exact ⟨rfl, rfl, rfl⟩ }

theorem Registry.Sound.dropExact {w : Registry} (h : w.Sound) (created : Except PipeNewError Unit)
    {i : ℕ} {reg : Registration} (hi : w.live[i]? = some reg) :
    ∃ res w', w.drop created i = some (res, w') ∧ DropExact w i reg res w' := by
  obtain ⟨r, hr, hmem, he⟩ := h.drop_cases created hi
  exact ⟨_, _, he, rfl, Registry.erase_perm hr hmem, rfl, rfl⟩

/-- The registry between two calls, and every call that may come next. -/
theorem registry_exact {w : Registry} (h : Reach system fits w) :
    w.Exact ∧
    (∀ created addr len prot state, Fits addr len →
      RegisterExact w addr len prot state (w.registerMmap created addr len prot state).1
        (w.registerMmap created addr len prot state).2) ∧
    ∀ created i reg, w.live[i]? = some reg →
      ∃ res w', w.drop created i = some (res, w') ∧ DropExact w i reg res w' := by
  have hs := sound_of_reach h
  exact ⟨hs.exact, fun created _ _ prot state hf => hs.registerExact created prot state hf,
    fun created _ _ hi => hs.dropExact created hi⟩

/-- Two ranges that touch, of which the first is dropped. -/
def touching : List Label :=
  [.registerMmap (.ok ()) 0x1000 0x1000 1 0, .registerMmap (.ok ()) 0x2000 0x1000 1 1,
    .drop (.ok ()) 1]

theorem registry_exact_touching :
    ∃ w, run system ⟨none, fun _ => State.new, []⟩ touching = some w ∧ w.Exact ∧
      RegisterExact w 0x1fff 2 1 0 (w.registerMmap (.ok ()) 0x1fff 2 1 0).1
        (w.registerMmap (.ok ()) 0x1fff 2 1 0).2 ∧
      ∃ res w', w.drop (.ok ()) 0 = some (res, w') ∧
        DropExact w 0 ⟨⟨0x2000, 1⟩, 0x1000, 1⟩ res w' := by
  obtain ⟨w, hw, hlive⟩ : ∃ w, run system ⟨none, fun _ => State.new, []⟩ touching = some w ∧
      w.live[0]? = some ⟨⟨0x2000, 1⟩, 0x1000, 1⟩ := ⟨_, rfl, rfl⟩
  have hfits : ∀ s, ∀ l ∈ touching, fits s l := by
    simp [touching, fits, Fits]
  obtain ⟨hexact, hregister, hdrop⟩ :=
    registry_exact (.run (.initial ⟨rfl, rfl⟩) (fun s l hl => hfits s l hl) hw)
  exact ⟨w, hw, hexact, hregister _ _ _ _ _ (by unfold Fits; decide), hdrop _ _ _ hlive⟩

end SignalCrates.Mmapcatch
