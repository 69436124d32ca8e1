import SignalCrates.SigbusHandler

/-!
# The replacement mapping

What `handle_sigbus` asks of `mmap` when the entries of `ROOT` are mappings that the kernel
made: they start on a page, and no two have a page in common.
-/
namespace SignalCrates.Mmapcatch

def Mapping.pages (p : PageSize) (m : Mapping) : Set ℕ := p.pages m.start.toNat m.len.toNat

/-- The length need not be a multiple of the page size. -/
structure Mapping.Real (p : PageSize) (m : Mapping) : Prop where
  nonzero : m.start ≠ 0
  aligned : p.size ∣ m.start.toNat
  len : 1 ≤ m.len

structure Root.Real (p : PageSize) (r : Root) : Prop where
  key : ∀ e ∈ r.map.entries, e.1 = e.2.start
  real : ∀ e ∈ r.map.entries, e.2.Real p
  disjoint : r.map.entries.Pairwise fun e e' => Disjoint (e.2.pages p) (e'.2.pages p)

def fixPages (p : PageSize) (m : Mapping) (a : Usize) : Set ℕ :=
  p.pages (fixStart p.bytes a).toNat (fixLen p m a).toNat

/-- The arithmetic of a fault at `a` in the entry `m`, and the pages it asks for. -/
structure WellFormed (p : PageSize) (r : Root) (m : Mapping) (a : Usize) : Prop where
  /-- `start + len` in the lookup, at the only entry that it looks at. -/
  lookup : ∃ e, r.map.lastLE a = some e ∧ e.2 = m ∧ e.1.toNat + e.2.len.toNat < 2 ^ 64
  /-- `fix_start - mapping.start` -/
  offset : m.start ≤ fixStart p.bytes a
  /-- `mapping.len - fix_offset` -/
  length : fixStart p.bytes a - m.start ≤ m.len
  nonzero : fixStart p.bytes a ≠ 0
  one_le : 1 ≤ fixLen p m a
  page : a.toNat / p.size ∈ fixPages p m a
  subset : fixPages p m a ⊆ m.pages p
  last : ∀ i, IsGreatest (fixPages p m a) i ↔ IsGreatest (m.pages p) i
  others : ∀ e ∈ r.map.entries, e.2 ≠ m → Disjoint (fixPages p m a) (e.2.pages p)

section
variable {p : PageSize} {r : Root} {m : Mapping} {a : Usize}

/-- An entry that a lookup finds does not wrap. -/
theorem Root.of_lookupAddr (h : r.lookupAddr a = some m) :
    ∃ e ∈ r.map.entries, r.map.lastLE a = some e ∧ e.2 = m ∧ e.1 ≤ a ∧ Fits e.1 e.2.len ∧
      a.toNat < e.1.toNat + e.2.len.toNat := by
  simp only [lookupAddr, Option.map_eq_some_iff, Option.filter_eq_some_iff,
    decide_eq_true_eq] at h
  obtain ⟨e, ⟨he, hle, hlt⟩, rfl⟩ := h
  have hsum : e.1.toNat + e.2.len.toNat < 2 ^ 64 ∧ a.toNat < e.1.toNat + e.2.len.toNat := by
    bv_omega
  have hlen : 1 ≤ e.2.len := by
    rw [BitVec.le_def] at hle ⊢
    bv_omega
  exact ⟨e, (OrderedMap.of_lastLE he).1, he, rfl, hle, ⟨hlen, hsum.1⟩, hsum.2⟩

theorem fixPages_eq (h : m.Real p) (hf : Fits m.start m.len) (ha : a.toNat ∈ m.range) :
    fixPages p m a = { i ∈ m.pages p | a.toNat / p.size ≤ i } := by
  have hle := start_le_fixStart h.aligned ha
  have hsum := fixStart_add_fixLen hf h.aligned ha
  rw [toNat_fixStart] at hle hsum
  rw [fixPages, toNat_fixStart]
  exact p.pages_tail hle hsum

/-- The replaced pages are the last ones of the mapping. -/
theorem last_fixPages_iff (h : m.Real p) (hf : Fits m.start m.len) (ha : a.toNat ∈ m.range)
    (i : ℕ) : IsGreatest (fixPages p m a) i ↔ IsGreatest (m.pages p) i := by
  have hpage : a.toNat / p.size ∈ m.pages p := p.div_mem_pages ha.1 ha.2
  rw [fixPages_eq h hf ha]
  constructor
  · rintro ⟨⟨hi, hle⟩, hmax⟩
    refine ⟨hi, fun j hj => ?_⟩
    rcases le_total (a.toNat / p.size) j with hlej | hlej
    · exact hmax ⟨hj, hlej⟩
    · exact hlej.trans hle
  · rintro ⟨hi, hmax⟩
    exact ⟨⟨hi, hmax hpage⟩, fun j hj => hmax hj.1⟩

theorem Root.Real.wellFormed (h : r.Real p) (hm : r.lookupAddr a = some m) :
    WellFormed p r m a := by
  obtain ⟨e, he, hlast, rfl, hle, hf, hlt⟩ := of_lookupAddr hm
  have hreal := h.real e he
  have hlookup : ∃ d, r.map.lastLE a = some d ∧ d.2 = e.2 ∧
      d.1.toNat + d.2.len.toNat < 2 ^ 64 := ⟨e, hlast, rfl, hf.2⟩
  rw [h.key e he] at hle hf hlt
  have ha : a.toNat ∈ e.2.range := ⟨hle, hlt⟩
  have hstart := start_le_fixStart hreal.aligned ha
  have hsum := fixStart_add_fixLen hf hreal.aligned ha
  have hfix : (fixStart p.bytes a).toNat ≤ a.toNat := by
    rw [toNat_fixStart]
    exact Nat.div_mul_le_self _ _
  have hpages := fixPages_eq hreal hf ha
  exact
    { lookup := hlookup
      offset := hstart
      length := by
        have hbound := hf.2
        bv_omega
      nonzero := by
        have hne := hreal.nonzero
        bv_omega
      one_le := by
        rw [fixLen]
        bv_omega
      page := by
        rw [hpages]
        exact ⟨p.div_mem_pages ha.1 ha.2, le_rfl⟩
      subset := by
        rw [hpages]
        exact fun i hi => hi.1
      last := last_fixPages_iff hreal hf ha
      others := by
        intro d hd hne
        have hsymm : Std.Symm fun e e' : Usize × Mapping =>
            Disjoint (e.2.pages p) (e'.2.pages p) := ⟨fun _ _ h => h.symm⟩
        have hdis := h.disjoint.forall he hd fun hed => hne (by rw [hed])
        rw [hpages]
        exact hdis.mono_left fun i hi => hi.1 }

/-- The call of `mmap` for a fault is well-formed and stays inside the entry, and no check
before it aborts. -/
theorem handle_sigbus_replacement (h : r.Real p) (hm : r.lookupAddr a = some m) :
    WellFormed p r m a ∧
    ∀ (kernel : Kernel) info siCode, kernel.sysconf = p.bytes →
      parseSigbus info = some ⟨a, siCode⟩ →
      handleSigbus kernel info (some r) =
        if kernel.mmap (fixStart p.bytes a) (fixLen p m a) m.mmapProt = failed then .error .abort
        else if kernel.mmap (fixStart p.bytes a) (fixLen p m a) m.mmapProt ≠
          fixStart p.bytes a then .error .abort
        else .ok ⟨m, ⟨a, siCode⟩, fixStart p.bytes a, fixLen p m a⟩ :=
  have hw := h.wellFormed hm
  ⟨hw, fun _ _ _ hk hp => handleSigbus_eq hk hp hm hw.nonzero⟩

end

/-- A mapping that ends inside its second page, and one that starts on the next page. -/
def adjacent : Root :=
  { Root.new with
    map := (Root.new.map.insert 0x1000 ⟨0x1000, 0x1800, 1, 0⟩).insert 0x3000
      ⟨0x3000, 0x1000, 1, 1⟩ }

theorem adjacent_real : adjacent.Real ⟨12, by decide⟩ where
  key := by decide
  real := by
    intro e he
    have hlist : e ∈ [(0x1000, ⟨0x1000, 0x1800, 1, 0⟩), (0x3000, ⟨0x3000, 0x1000, 1, 1⟩)] := he
    rcases List.mem_pair.mp hlist with rfl | rfl
    · exact ⟨by decide, ⟨1, rfl⟩, by decide⟩
    · exact ⟨by decide, ⟨3, rfl⟩, by decide⟩
  disjoint := by
    refine List.pairwise_pair.mpr (Set.disjoint_left.mpr ?_)
    rintro i ⟨-, hlt⟩ ⟨hle, -⟩
    change i * 0x1000 < 0x2800 at hlt
    change 3 ≤ i at hle
    omega

theorem handle_sigbus_replacement_adjacent :
    ∃ p, WellFormed p adjacent ⟨0x1000, 0x1800, 1, 0⟩ 0x27ff ∧
      handleSigbus ⟨0x1000, fun addr _ _ => addr⟩ ⟨SIGBUS, BUS_ADRERR, 0x27ff⟩ (some adjacent) =
        .ok ⟨⟨0x1000, 0x1800, 1, 0⟩, ⟨0x27ff, BUS_ADRERR⟩, 0x2000, 0x800⟩ := by
  obtain ⟨hw, hcall⟩ := handle_sigbus_replacement adjacent_real (a := 0x27ff) rfl
  exact ⟨_, hw, hcall _ _ _ rfl rfl⟩

end SignalCrates.Mmapcatch
