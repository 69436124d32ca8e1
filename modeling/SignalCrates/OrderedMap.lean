import Mathlib

/-!
# Maps with ordered keys, and maps of disjoint intervals

An ordered map is its list of entries in ascending order of their keys. When each entry
stands for the interval from its key to its stop, the last entry that starts at or
before a point decides which interval the point is in.
-/
namespace SignalCrates

structure OrderedMap (κ ν : Type*) [LT κ] where
  entries : List (κ × ν)
  sorted : entries.Pairwise fun e e' => e.1 < e'.1

variable {κ ν : Type*} [LinearOrder κ]

namespace OrderedMap

def empty : OrderedMap κ ν := ⟨[], .nil⟩

/-- Insert an entry before the first larger key; an equal key is replaced. -/
def insertEntry (k : κ) (v : ν) : List (κ × ν) → List (κ × ν)
  | [] => [(k, v)]
  | e :: es =>
    if k < e.1 then (k, v) :: e :: es
    else if k = e.1 then (k, v) :: es
    else e :: insertEntry k v es

theorem mem_insertEntry {k : κ} {v : ν} {es : List (κ × ν)}
    (hs : es.Pairwise fun e e' => e.1 < e'.1) {e : κ × ν} :
    e ∈ insertEntry k v es ↔ e = (k, v) ∨ e ∈ es ∧ e.1 ≠ k := by
  induction es with
  | nil => simp [insertEntry]
  | cons d es ih =>
    obtain ⟨hd, hs⟩ := List.pairwise_cons.mp hs
    rw [insertEntry]
    split_ifs with hlt heq
    · have hne : ∀ x ∈ d :: es, x.1 ≠ k := by
        intro x hx
        rcases List.mem_cons.mp hx with rfl | hx
        · exact hlt.ne'
        · exact (hlt.trans (hd x hx)).ne'
      rw [List.mem_cons]
      exact or_congr_right ⟨fun h => ⟨h, hne e h⟩, And.left⟩
    · subst heq
      simp only [List.mem_cons]
      constructor
      · rintro (rfl | h)
        · exact .inl rfl
        · exact .inr ⟨.inr h, (hd e h).ne'⟩
      · rintro (rfl | ⟨rfl | h, hne⟩)
        · exact .inl rfl
        · exact absurd rfl hne
        · exact .inr h
    · simp only [List.mem_cons, ih hs]
      constructor
      · rintro (rfl | rfl | ⟨h, hne⟩)
        · exact .inr ⟨.inl rfl, fun h => heq h.symm⟩
        · exact .inl rfl
        · exact .inr ⟨.inr h, hne⟩
      · rintro (rfl | ⟨rfl | h, hne⟩)
        · exact .inr (.inl rfl)
        · exact .inl rfl
        · exact .inr (.inr ⟨h, hne⟩)

theorem sorted_insertEntry (k : κ) (v : ν) {es : List (κ × ν)}
    (hs : es.Pairwise fun e e' => e.1 < e'.1) :
    (insertEntry k v es).Pairwise fun e e' => e.1 < e'.1 := by
  induction es with
  | nil => exact List.pairwise_singleton _ _
  | cons d es ih =>
    obtain ⟨hd, hs⟩ := List.pairwise_cons.mp hs
    rw [insertEntry]
    split_ifs with hlt heq
    · refine List.pairwise_cons.mpr ⟨fun x hx => ?_, List.pairwise_cons.mpr ⟨hd, hs⟩⟩
      rcases List.mem_cons.mp hx with rfl | hx
      · exact hlt
      · exact hlt.trans (hd x hx)
    · subst heq
      exact List.pairwise_cons.mpr ⟨hd, hs⟩
    · refine List.pairwise_cons.mpr ⟨fun x hx => ?_, ih hs⟩
      rcases (mem_insertEntry hs).mp hx with rfl | ⟨hx, -⟩
      · exact lt_of_le_of_ne (not_lt.mp hlt) (Ne.symm heq)
      · exact hd x hx

def insert (m : OrderedMap κ ν) (k : κ) (v : ν) : OrderedMap κ ν :=
  ⟨insertEntry k v m.entries, sorted_insertEntry k v m.sorted⟩

def get? (m : OrderedMap κ ν) (k : κ) : Option ν :=
  (m.entries.find? fun e => e.1 = k).map Prod.snd

def erase (m : OrderedMap κ ν) (k : κ) : OrderedMap κ ν :=
  ⟨m.entries.filter fun e => e.1 ≠ k, m.sorted.filter _⟩

/-- The last entry whose key is at most `k`. -/
def lastLE (m : OrderedMap κ ν) (k : κ) : Option (κ × ν) :=
  (m.entries.filter fun e => e.1 ≤ k).getLast?

variable {m : OrderedMap κ ν} {k : κ} {v : ν} {e : κ × ν}

theorem mem_insert : e ∈ (m.insert k v).entries ↔ e = (k, v) ∨ e ∈ m.entries ∧ e.1 ≠ k :=
  mem_insertEntry m.sorted

theorem mem_erase : e ∈ (m.erase k).entries ↔ e ∈ m.entries ∧ e.1 ≠ k := by
  simp [erase, List.mem_filter]

theorem eq_of_key {e e' : κ × ν} (he : e ∈ m.entries) (he' : e' ∈ m.entries)
    (h : e.1 = e'.1) : e = e' := by
  obtain ⟨es, hs⟩ := m
  change e ∈ es at he
  change e' ∈ es at he'
  induction es with
  | nil => exact absurd he List.not_mem_nil
  | cons d es ih =>
    obtain ⟨hd, hs⟩ := List.pairwise_cons.mp hs
    rcases List.mem_cons.mp he with rfl | he₁ <;> rcases List.mem_cons.mp he' with rfl | he₂
    · rfl
    · exact absurd h (hd e' he₂).ne
    · exact absurd h (hd e he₁).ne'
    · exact ih hs he₁ he₂

theorem get?_eq_some_iff : m.get? k = some v ↔ (k, v) ∈ m.entries := by
  simp only [get?, Option.map_eq_some_iff]
  constructor
  · rintro ⟨e, he, rfl⟩
    have hk : e.1 = k := by simpa using List.find?_some he
    rw [← hk]
    exact List.mem_of_find?_eq_some he
  · intro h
    obtain ⟨e, he⟩ := Option.isSome_iff_exists.mp
      (List.find?_isSome (p := fun e : κ × ν => decide (e.1 = k)).mpr ⟨_, h, by simp⟩)
    have hk : e.1 = k := by simpa using List.find?_some he
    exact ⟨e, he, by rw [eq_of_key (List.mem_of_find?_eq_some he) h hk]⟩

theorem of_lastLE (h : m.lastLE k = some e) :
    e ∈ m.entries ∧ e.1 ≤ k ∧ ∀ e' ∈ m.entries, e'.1 ≤ k → e'.1 ≤ e.1 := by
  have hs : (m.entries.filter fun e => e.1 ≤ k).Pairwise fun e e' => e.1 < e'.1 :=
    m.sorted.filter _
  obtain ⟨es, hes⟩ := List.getLast?_eq_some_iff.mp h
  have hmem : e ∈ m.entries.filter fun e => e.1 ≤ k := by rw [hes]; simp
  obtain ⟨he, hk⟩ := List.mem_filter.mp hmem
  refine ⟨he, by simpa using hk, fun e' he' hk' => ?_⟩
  have hmem' : e' ∈ m.entries.filter fun e => e.1 ≤ k := by simp [he', hk']
  rw [hes] at hs hmem'
  rcases List.mem_append.mp hmem' with hm | hm
  · exact ((List.pairwise_append.mp hs).2.2 e' hm e (by simp)).le
  · rw [List.mem_singleton.mp hm]

theorem lastLE_eq_some_iff : m.lastLE k = some e ↔
    e ∈ m.entries ∧ e.1 ≤ k ∧ ∀ e' ∈ m.entries, e'.1 ≤ k → e'.1 ≤ e.1 := by
  refine ⟨of_lastLE, ?_⟩
  rintro ⟨he, hk, hlast⟩
  have hmem : e ∈ m.entries.filter fun e => e.1 ≤ k := by simp [he, hk]
  obtain ⟨e', h'⟩ := Option.isSome_iff_exists.mp
    (List.getLast?_isSome.mpr (List.ne_nil_of_mem hmem))
  obtain ⟨he', hk', hlast'⟩ := of_lastLE (m := m) (k := k) h'
  rw [lastLE, h', eq_of_key he' he (le_antisymm (hlast e' he' hk') (hlast' e he hk))]

theorem nodup (m : OrderedMap κ ν) : m.entries.Nodup :=
  m.sorted.imp fun h he => absurd (congrArg Prod.fst he) h.ne

/-- The entries without their order after an insertion of a new key. -/
theorem perm_insert (hk : ∀ e ∈ m.entries, e.1 ≠ k) :
    ((m.insert k v).entries).Perm ((k, v) :: m.entries) := by
  refine (List.perm_ext_iff_of_nodup (nodup _) ?_).mpr fun e => ?_
  · exact List.nodup_cons.mpr ⟨fun h => hk _ h rfl, m.nodup⟩
  · rw [mem_insert, List.mem_cons]
    exact or_congr_right ⟨And.left, fun h => ⟨h, hk e h⟩⟩

/-- The entries without their order before the removal of a key. -/
theorem perm_erase (h : (k, v) ∈ m.entries) :
    m.entries.Perm ((k, v) :: (m.erase k).entries) := by
  refine (List.perm_ext_iff_of_nodup m.nodup ?_).mpr fun e => ?_
  · exact List.nodup_cons.mpr ⟨fun h => (mem_erase.mp h).2 rfl, nodup _⟩
  · rw [List.mem_cons, mem_erase]
    constructor
    · intro he
      by_cases hk : e.1 = k
      · exact .inl (eq_of_key he h hk)
      · exact .inr ⟨he, hk⟩
    · rintro (rfl | he)
      · exact h
      · exact he.1

/-- The intervals from the keys to the stops are not empty and do not meet. -/
structure Separated (stop : κ × ν → κ) (m : OrderedMap κ ν) : Prop where
  nonempty : ∀ e ∈ m.entries, e.1 < stop e
  disjoint : ∀ e ∈ m.entries, ∀ e' ∈ m.entries, e.1 < e'.1 → stop e ≤ e'.1

section Separated
variable {stop : κ × ν → κ}

/-- To find an interval that starts at or before `b` and reaches beyond `a` it is enough to
look at the last one that starts at or before `b`. -/
theorem Separated.exists_iff (h : m.Separated stop) {a b : κ} :
    (∃ e ∈ m.entries, e.1 ≤ b ∧ a < stop e) ↔ ∃ e, m.lastLE b = some e ∧ a < stop e := by
  constructor
  · rintro ⟨e, he, hb, ha⟩
    have hmem : e ∈ m.entries.filter fun e => e.1 ≤ b := by simp [he, hb]
    obtain ⟨d, hd⟩ := Option.isSome_iff_exists.mp
      (List.getLast?_isSome.mpr (List.ne_nil_of_mem hmem))
    obtain ⟨hdm, hdb, hlast⟩ := of_lastLE (m := m) (k := b) hd
    refine ⟨d, hd, ?_⟩
    rcases (hlast e he hb).lt_or_eq with hlt | heq
    · exact ha.trans ((h.disjoint e he d hdm hlt).trans_lt (h.nonempty d hdm))
    · rwa [← eq_of_key he hdm heq]
  · rintro ⟨e, he, ha⟩
    obtain ⟨hem, heb, -⟩ := of_lastLE he
    exact ⟨e, hem, heb, ha⟩

/-- A point lies in at most one interval, and the last that starts there or before. -/
theorem Separated.lastLE_eq (h : m.Separated stop) {a : κ} (he : e ∈ m.entries) (hk : e.1 ≤ a)
    (ha : a < stop e) : m.lastLE a = some e := by
  refine lastLE_eq_some_iff.mpr ⟨he, hk, fun e' he' hk' => ?_⟩
  by_contra hlt
  exact absurd (ha.trans_le ((h.disjoint e he e' he' (not_le.mp hlt)).trans hk')) (lt_irrefl a)

theorem Separated.insert (h : m.Separated stop) (hv : k < stop (k, v))
    (hnew : ∀ e ∈ m.entries, stop e ≤ k ∨ stop (k, v) ≤ e.1) :
    (m.insert k v).Separated stop where
  nonempty e he := by
    rcases mem_insert.mp he with rfl | ⟨he, -⟩
    · exact hv
    · exact h.nonempty e he
  disjoint e he e' he' hlt := by
    rcases mem_insert.mp he with rfl | ⟨he, -⟩ <;>
      rcases mem_insert.mp he' with rfl | ⟨he', -⟩
    · exact absurd hlt (lt_irrefl _)
    · refine (hnew e' he').resolve_left fun hle => ?_
      exact absurd (hlt.trans ((h.nonempty e' he').trans_le hle)) (lt_irrefl _)
    · refine (hnew e he).resolve_right fun hle => ?_
      exact absurd (hv.trans (hle.trans_lt hlt)) (lt_irrefl _)
    · exact h.disjoint e he e' he' hlt

theorem Separated.erase (h : m.Separated stop) : (m.erase k).Separated stop where
  nonempty e he := h.nonempty e (mem_erase.mp he).1
  disjoint e he e' he' := h.disjoint e (mem_erase.mp he).1 e' (mem_erase.mp he').1

end Separated

end OrderedMap

end SignalCrates
