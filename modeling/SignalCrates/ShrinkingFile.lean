import SignalCrates.SigbusPages

/-!
# Reading a file that shrinks

Threads load bytes of a registered mapping, which is readable, while its file is truncated.
A load that gets SIGBUS is repeated when the handler has returned.
-/
namespace SignalCrates.Mmapcatch
open TransitionSystem

/-- The pages, and for each thread the address that it loads, the signals handled for this
load, and what its last load returned. -/
structure Reads where
  pages : Pages
  load : ℕ → Option Usize
  handled : ℕ → ℕ
  register : ℕ → Byte

inductive Read
  | load (t : ℕ) (x : Usize)
  | access (t : ℕ)
  | sigbus (t : ℕ) (kernel : Kernel) (siCode : CInt)
  | truncate (n : ℕ)

/-- The steps of the thread for a load that it has begun. -/
def Read.own (t : ℕ) : Read → Bool
  | .access u => u = t
  | .sigbus u _ _ => u = t
  | _ => false

variable (r : Registered)

def Registered.read (s : Reads) : Read → Option Reads
  | .load t x =>
    if s.load t = none ∧ r.mapping.start ≤ x ∧ x < r.mapping.start + r.mapping.len then
      some { s with
        load := Function.update s.load t (some x)
        handled := Function.update s.handled t 0 }
    else none
  | .access t =>
    match s.load t with
    | none => none
    | some x =>
      (r.next s.pages (.load t x)).map fun pages =>
        if pages.pending t = none then
          { s with
            pages
            load := Function.update s.load t none
            register := Function.update s.register t (pages.content r.page x.toNat) }
        else { s with pages }
  | .sigbus t kernel siCode =>
    (r.next s.pages (.handle t kernel siCode)).map fun pages =>
      { s with pages, handled := Function.update s.handled t (s.handled t + 1) }
  | .truncate n => (r.next s.pages (.truncate n)).map fun pages => { s with pages }

/-- A file that has a byte for every address of the mapping, before any fault. -/
def Registered.reading (file : ℕ → Byte) : System Reads Read where
  initial s := (∀ i, s.pages.failing i = false) ∧ (∀ i, s.pages.replaced i = false) ∧
    (∀ t, s.pages.pending t = none) ∧ (∀ t, s.load t = none) ∧ s.pages.file = file ∧
    r.mapping.start.toNat + r.mapping.len.toNat ≤ s.pages.fileEnd
  next := r.read

def Registered.readObeys (_ : Reads) : Read → Prop
  | .sigbus _ kernel siCode =>
    kernel.Obeys r.page ∧ (siCode = BUS_ADRERR ∨ siCode = BUS_OBJERR)
  | _ => True

/-- What a load returns while the file ends at `fileEnd`. -/
def byteAt (file : ℕ → Byte) (fileEnd x : ℕ) : Byte := if x < fileEnd then file x else 0

/-- A replaced page lies beyond the end of the file, and so does a page that failed. -/
structure Registered.Shrunk (file : ℕ → Byte) (s : Reads) : Prop where
  failing : ∀ i, s.pages.failing i = false
  file : ∀ x ∈ r.mapping.range, s.pages.file x = byteAt file s.pages.fileEnd x
  replaced : ∀ x ∈ r.addresses, s.pages.replaced (x / r.page.size) = true →
    s.pages.fileEnd ≤ x / r.page.size * r.page.size ∧ s.pages.anon x = 0
  load : ∀ t x, s.load t = some x → x.toNat ∈ r.mapping.range
  pending : ∀ t x, s.pages.pending t = some x → s.load t = some x ∧ s.handled t = 0 ∧
    s.pages.fileEnd ≤ x.toNat / r.page.size * r.page.size
  handled : ∀ t x, s.load t = some x → s.handled t = 0 ∨
    s.handled t = 1 ∧ s.pages.replaced (x.toNat / r.page.size) = true

/-- Every load gets the byte that the file has, without a second signal, and nothing that is
still in the file is hidden. The addresses of the file's bytes stand for their offsets. -/
structure Registered.Graceful (file : ℕ → Byte) (s : Reads) : Prop where
  visible : ∀ x ∈ r.mapping.range, x < s.pages.fileEnd →
    s.pages.replaced (x / r.page.size) = false
  once : ∀ t, s.load t ≠ none → s.handled t ≤ 1
  access : ∀ t, s.load t ≠ none → s.pages.pending t = none →
    ∃ s', r.read s (.access t) = some s' ∧ (s.handled t = 1 → s'.load t = none)
  sigbus : ∀ t kernel siCode, s.pages.pending t ≠ none →
    r.readObeys s (.sigbus t kernel siCode) → ∃ s', r.read s (.sigbus t kernel siCode) = some s'
  returns : ∀ t x s', s.load t = some x → r.read s (.access t) = some s' → s'.load t = none →
    s'.register t = byteAt file s.pages.fileEnd x.toNat

/-- A run in which thread `t` does not complete its load, latest step first. -/
inductive Registered.InProgress (t : ℕ) (s : Reads) : List Read → Reads → Prop
  | here (h : s.load t ≠ none) : InProgress t s [] s
  | step {as : List Read} {a : Read} {s₁ s₂ : Reads} (prior : InProgress t s as s₁)
      (allowed : r.readObeys s₁ a) (taken : r.read s₁ a = some s₂) (h : s₂.load t ≠ none) :
      InProgress t s (a :: as) s₂

variable {r} {file : ℕ → Byte} {s s' : Reads}

theorem Registered.Shrunk.inside (h : r.Shrunk file s) : r.Inside s.pages :=
  fun t x hx => h.load t x (h.pending t x hx).1

theorem Registered.Shrunk.accessible_iff (h : r.Shrunk file s) (i : ℕ) :
    s.pages.accessible r.page i = true ↔
      s.pages.replaced i = true ∨ i * r.page.size < s.pages.fileEnd := by
  simp [Pages.accessible, h.failing i]

/-- A page that can be accessed shows the file, and zeros beyond its end. -/
theorem Registered.Shrunk.content (h : r.Shrunk file s) {x : ℕ} (hx : x ∈ r.mapping.range) :
    s.pages.content r.page x = byteAt file s.pages.fileEnd x := by
  have hmem : x ∈ r.addresses := ⟨hx.1, (Nat.div_mul_le_self _ _).trans_lt hx.2⟩
  rw [Pages.content]
  split_ifs with hr
  · obtain ⟨hend, hanon⟩ := h.replaced x hmem hr
    have hle := hend.trans (Nat.div_mul_le_self x r.page.size)
    rw [hanon, byteAt, if_neg (by omega)]
  · exact h.file x hx

/-- An access returns a byte, or gets SIGBUS. -/
theorem Registered.access_cases {t : ℕ} (hn : r.read s (.access t) = some s') :
    ∃ x, s.load t = some x ∧ s.pages.pending t = none ∧
      (s.pages.accessible r.page (x.toNat / r.page.size) = true ∧
        s' = { s with
          load := Function.update s.load t none
          register := Function.update s.register t (s.pages.content r.page x.toNat) } ∨
      s.pages.accessible r.page (x.toNat / r.page.size) = false ∧
        s' = { s with pages := s.pages.fault t x }) := by
  simp only [Registered.read] at hn
  cases hl : s.load t with
  | none => simp [hl] at hn
  | some x =>
    simp only [hl, Registered.next] at hn
    split_ifs at hn with hx hacc
    · simp only [Option.map_some, if_pos hx.1, Option.some.injEq] at hn
      exact ⟨x, rfl, hx.1, .inl ⟨hacc, hn.symm⟩⟩
    · have hpending : (s.pages.fault t x).pending t ≠ none := by simp [Pages.pending_fault]
      simp only [Option.map_some, if_neg hpending, Option.some.injEq] at hn
      exact ⟨x, rfl, hx.1, .inr ⟨Bool.eq_false_iff.mpr hacc, hn.symm⟩⟩
    · cases hn

/-- A handler replaces the page of the access, and only pages beyond the end of the file. -/
theorem Registered.sigbus_cases (h : r.Shrunk file s) {t : ℕ} {kernel : Kernel} {siCode : CInt}
    (hk : r.readObeys s (.sigbus t kernel siCode))
    (hn : r.read s (.sigbus t kernel siCode) = some s') :
    ∃ a addr len, s.pages.pending t = some a ∧
      s' = { s with
        pages := (s.pages.mmap r.page addr len).resume t
        handled := Function.update s.handled t (s.handled t + 1) } ∧
      ∀ x ∈ r.addresses, Pages.covers r.page addr len (x / r.page.size) = true ↔
        a.toNat / r.page.size ≤ x / r.page.size := by
  simp only [Registered.read, Registered.next, Option.map_eq_some_iff] at hn
  obtain ⟨pages, hn, rfl⟩ := hn
  obtain ⟨a, addr, len, ha, rfl, hcovers⟩ := handle_cases h.inside hk hn
  exact ⟨a, addr, len, ha, rfl, hcovers⟩

theorem Registered.Shrunk.sigbus (h : r.Shrunk file s) {t : ℕ} {kernel : Kernel}
    {siCode : CInt} (hk : r.readObeys s (.sigbus t kernel siCode))
    (hn : r.read s (.sigbus t kernel siCode) = some s') : r.Shrunk file s' := by
  obtain ⟨a, addr, len, ha, rfl, hcovers⟩ := sigbus_cases h hk hn
  obtain ⟨hload, hzero, hend⟩ := h.pending t a ha
  have hmem := mem_addresses (h.load t a hload)
  have hreplaced : ∀ x ∈ r.addresses, (s.pages.mmap r.page addr len).replaced (x / r.page.size) =
      true ↔ a.toNat / r.page.size ≤ x / r.page.size ∨
        s.pages.replaced (x / r.page.size) = true := by
    intro x hx
    rw [← hcovers x hx]
    exact Iff.of_eq (Bool.or_eq_true _ _)
  exact
    { failing := h.failing
      file := h.file
      replaced := by
        intro x hx hr
        have hanon : (s.pages.mmap r.page addr len).anon x =
          if Pages.covers r.page addr len (x / r.page.size) then 0 else s.pages.anon x := rfl
        simp only [hcovers x hx] at hanon
        change s.pages.fileEnd ≤ _ ∧ (s.pages.mmap r.page addr len).anon x = 0
        rw [hanon]
        by_cases hle : a.toNat / r.page.size ≤ x / r.page.size
        · exact ⟨hend.trans (Nat.mul_le_mul_right _ hle), if_pos hle⟩
        · rw [if_neg hle]
          exact h.replaced x hx (((hreplaced x hx).mp hr).resolve_left hle)
      load := h.load
      pending := by
        intro u x hx
        have hx : ((s.pages.mmap r.page addr len).resume t).pending u = some x := hx
        rw [Pages.pending_resume] at hx
        split_ifs at hx with hu
        obtain ⟨hl, hz, he⟩ := h.pending u x hx
        exact ⟨hl, (Function.update_of_ne hu _ _).trans hz, he⟩
      handled := by
        intro u x hx
        have hkeep : s.pages.replaced (x.toNat / r.page.size) = true →
            (s.pages.mmap r.page addr len).replaced (x.toNat / r.page.size) = true := fun hr =>
          (hreplaced _ (mem_addresses (h.load u x hx))).mpr (.inr hr)
        by_cases hu : u = t
        · subst hu
          obtain rfl := Option.some.inj (hx.symm.trans hload)
          refine .inr ⟨?_, (hreplaced _ hmem).mpr (.inl le_rfl)⟩
          exact (Function.update_self _ _ _).trans (by rw [hzero])
        · change Function.update s.handled t _ u = 0 ∨ Function.update s.handled t _ u = 1 ∧ _
          rw [Function.update_of_ne hu]
          exact (h.handled u x hx).imp_right fun hr => ⟨hr.1, hkeep hr.2⟩ }

theorem Registered.Shrunk.access (h : r.Shrunk file s) {t : ℕ}
    (hn : r.read s (.access t) = some s') : r.Shrunk file s' := by
  obtain ⟨x, hl, hpending, ⟨hacc, rfl⟩ | ⟨hacc, rfl⟩⟩ := access_cases hn
  · have hload : ∀ u y, Function.update s.load t none u = some y → u ≠ t ∧ s.load u = some y := by
      intro u y hy
      rw [Function.update_apply] at hy
      split_ifs at hy with hu
      exact ⟨hu, hy⟩
    exact
      { failing := h.failing
        file := h.file
        replaced := h.replaced
        load := fun u y hy => h.load u y (hload u y hy).2
        pending := by
          intro u y hy
          obtain ⟨hly, hz, he⟩ := h.pending u y hy
          have hu : u ≠ t := by
            rintro rfl
            rw [hpending] at hy
            cases hy
          exact ⟨(Function.update_of_ne hu _ _).trans hly, hz, he⟩
        handled := fun u y hy => h.handled u y (hload u y hy).2 }
  · have hnot : ¬ (s.pages.replaced (x.toNat / r.page.size) = true ∨
        x.toNat / r.page.size * r.page.size < s.pages.fileEnd) := by
      rw [← h.accessible_iff, hacc]
      exact Bool.false_ne_true
    obtain ⟨hr, hend⟩ := not_or.mp hnot
    exact
      { failing := h.failing
        file := h.file
        replaced := h.replaced
        load := h.load
        pending := by
          intro u y hy
          have hy : (s.pages.fault t x).pending u = some y := hy
          rw [Pages.pending_fault] at hy
          split_ifs at hy with hu
          · cases hy
            rw [hu]
            exact ⟨hl, (h.handled t x hl).resolve_right fun hh => hr hh.2, not_lt.mp hend⟩
          · exact h.pending u y hy
        handled := h.handled }

theorem Registered.Shrunk.truncate (h : r.Shrunk file s) {n : ℕ}
    (hn : r.read s (.truncate n) = some s') : r.Shrunk file s' := by
  simp only [Registered.read, Registered.next, Option.map_eq_some_iff] at hn
  obtain ⟨pages, hn, rfl⟩ := hn
  split_ifs at hn with hle
  cases hn
  exact
    { failing := h.failing
      file := by
        intro x hx
        have hfile : (s.pages.truncate r.page n).file x = if x < n then s.pages.file x else 0 := rfl
        have hfileEnd : (s.pages.truncate r.page n).fileEnd = n := rfl
        rw [hfile, hfileEnd, h.file x hx, byteAt, byteAt]
        by_cases hlt : x < n
        · rw [if_pos hlt, if_pos hlt, if_pos (hlt.trans_le hle)]
        · rw [if_neg hlt, if_neg hlt]
      replaced := fun x hx hr => (h.replaced x hx hr).imp_left hle.trans
      load := h.load
      pending := by
        intro t x hx
        obtain ⟨hl, hz, he⟩ := h.pending t x hx
        exact ⟨hl, hz, hle.trans he⟩
      handled := h.handled }

theorem Registered.Shrunk.begin (h : r.Shrunk file s) {t : ℕ} {x : Usize}
    (hn : r.read s (.load t x) = some s') : r.Shrunk file s' := by
  simp only [Registered.read, Option.ite_none_right_eq_some, Option.some.injEq] at hn
  obtain ⟨⟨hnone, hx⟩, rfl⟩ := hn
  have hload : ∀ u y, Function.update s.load t (some x) u = some y →
      u = t ∧ y = x ∨ u ≠ t ∧ s.load u = some y := by
    intro u y hy
    rw [Function.update_apply] at hy
    split_ifs at hy with hu
    · exact .inl ⟨hu, (Option.some.inj hy).symm⟩
    · exact .inr ⟨hu, hy⟩
  exact
    { failing := h.failing
      file := h.file
      replaced := h.replaced
      load := by
        intro u y hy
        rcases hload u y hy with ⟨-, rfl⟩ | ⟨-, hy⟩
        · exact r.fits.mem_range.mpr hx
        · exact h.load u y hy
      pending := by
        intro u y hy
        obtain ⟨hl, hz, he⟩ := h.pending u y hy
        have hu : u ≠ t := by
          rintro rfl
          rw [hnone] at hl
          cases hl
        exact ⟨(Function.update_of_ne hu _ _).trans hl, (Function.update_of_ne hu _ _).trans hz, he⟩
      handled := by
        intro u y hy
        change Function.update s.handled t 0 u = 0 ∨ Function.update s.handled t 0 u = 1 ∧ _
        rcases hload u y hy with ⟨rfl, -⟩ | ⟨hu, hy⟩
        · exact .inl (Function.update_self _ _ _)
        · rw [Function.update_of_ne hu]
          exact h.handled u y hy }

theorem Registered.Shrunk.next (h : r.Shrunk file s) {a : Read} (ha : r.readObeys s a)
    (hn : r.read s a = some s') : r.Shrunk file s' := by
  cases a with
  | load t x => exact h.begin hn
  | access t => exact h.access hn
  | sigbus t kernel siCode => exact h.sigbus ha hn
  | truncate n => exact h.truncate hn

theorem Registered.shrunk_of_reach (h : Reach (r.reading file) r.readObeys s) :
    r.Shrunk file s := by
  refine h.invariant ?_ fun s a s' _ hI ha hn => hI.next ha hn
  rintro s ⟨hfailing, hreplaced, hpending, hload, hfile, hend⟩
  exact
    { failing := hfailing
      file := by
        intro x hx
        have hlt : x < s.pages.fileEnd := hx.2.trans_le hend
        rw [hfile, byteAt, if_pos hlt]
      replaced := by
        intro x _ hr
        rw [hreplaced] at hr
        cases hr
      load := by
        intro t x hx
        rw [hload] at hx
        cases hx
      pending := by
        intro t x hx
        rw [hpending] at hx
        cases hx
      handled := by
        intro t x hx
        rw [hload] at hx
        cases hx }

theorem Registered.Shrunk.graceful (h : r.Shrunk file s) : r.Graceful file s where
  visible := by
    intro x hx hlt
    refine Bool.eq_false_iff.mpr fun hr => ?_
    have hend := (h.replaced x ⟨hx.1, (Nat.div_mul_le_self _ _).trans_lt hx.2⟩ hr).1
    have hle := Nat.div_mul_le_self x r.page.size
    omega
  once := by
    intro t ht
    obtain ⟨x, hx⟩ := Option.ne_none_iff_exists'.mp ht
    rcases h.handled t x hx with hz | ⟨hone, -⟩
    · omega
    · omega
  access := by
    intro t ht hpending
    obtain ⟨x, hx⟩ := Option.ne_none_iff_exists'.mp ht
    have hrange := r.fits.mem_range.mp (h.load t x hx)
    cases hacc : s.pages.accessible r.page (x.toNat / r.page.size) with
    | true =>
      refine ⟨{ s with
        load := Function.update s.load t none
        register := Function.update s.register t (s.pages.content r.page x.toNat) }, ?_, ?_⟩
      · simp [Registered.read, Registered.next, hx, hpending, hrange, hacc]
      · exact fun _ => Function.update_self _ _ _
    | false =>
      refine ⟨{ s with pages := s.pages.fault t x }, ?_, fun hone => ?_⟩
      · simp [Registered.read, Registered.next, hx, hpending, hrange, hacc, Pages.pending_fault]
      · rcases h.handled t x hx with hz | ⟨-, hr⟩
        · omega
        · have hacc' := (h.accessible_iff _).mpr (.inl hr)
          rw [hacc] at hacc'
          cases hacc'
  sigbus := by
    intro t kernel siCode ht hk
    obtain ⟨a, ha⟩ := Option.ne_none_iff_exists'.mp ht
    have hok := handleSigbus_ok (h.inside t a ha) hk.1 hk.2
    simp [Registered.read, Registered.next, Registered.handle, ha, hok]
  returns := by
    intro t x s' hx hn hdone
    obtain ⟨y, hy, -, ⟨-, rfl⟩ | ⟨-, rfl⟩⟩ := access_cases hn
    · obtain rfl := Option.some.inj (hx.symm.trans hy)
      exact (Function.update_self _ _ _).trans (h.content (h.load t x hx))
    · rw [hdone] at hx
      cases hx

/-- The steps that a load in progress has taken. -/
def Reads.spent (s : Reads) (t : ℕ) : ℕ :=
  2 * s.handled t + if s.pages.pending t = none then 0 else 1

theorem Registered.Shrunk.spent_le (h : r.Shrunk file s) {t : ℕ} (ht : s.load t ≠ none) :
    s.spent t ≤ 2 := by
  unfold Reads.spent
  have honce := h.graceful.once t ht
  split_ifs with hp
  · omega
  · obtain ⟨x, hx⟩ := Option.ne_none_iff_exists'.mp hp
    have hz := (h.pending t x hx).2.1
    omega

/-- A step of a load that leaves it in progress is a fault or a handler. -/
theorem Registered.Shrunk.spent_next (h : r.Shrunk file s) {a : Read} (ha : r.readObeys s a)
    (hn : r.read s a = some s') {t : ℕ} (ht : s.load t ≠ none) (ht' : s'.load t ≠ none) :
    s'.spent t = s.spent t + if a.own t then 1 else 0 := by
  cases a with
  | load u x =>
    simp only [Registered.read, Option.ite_none_right_eq_some, Option.some.injEq] at hn
    obtain ⟨⟨hnone, -⟩, rfl⟩ := hn
    have hu : t ≠ u := by
      rintro rfl
      exact ht hnone
    simp [Reads.spent, Read.own, hu]
  | access u =>
    obtain ⟨x, -, hpending, ⟨-, rfl⟩ | ⟨-, rfl⟩⟩ := access_cases hn
    · have hu : u ≠ t := by
        rintro rfl
        exact ht' (Function.update_self _ _ _)
      simp [Reads.spent, Read.own, hu]
    · by_cases hu : u = t
      · subst hu
        simp [Reads.spent, Read.own, Pages.pending_fault, hpending]
      · simp [Reads.spent, Read.own, Pages.pending_fault, hu, Ne.symm hu]
  | sigbus u kernel siCode =>
    obtain ⟨b, addr, len, hb, rfl, -⟩ := sigbus_cases h ha hn
    by_cases hu : u = t
    · subst hu
      simp [Reads.spent, Read.own, Pages.pending_resume, hb]
      omega
    · have hmmap : (s.pages.mmap r.page addr len).pending = s.pages.pending := rfl
      simp [Reads.spent, Read.own, Pages.pending_resume, hu, Ne.symm hu, hmmap]
  | truncate n =>
    simp only [Registered.read, Registered.next, Option.map_eq_some_iff] at hn
    obtain ⟨pages, hn, rfl⟩ := hn
    split_ifs at hn
    cases hn
    simp [Reads.spent, Read.own, Pages.truncate]

theorem Registered.InProgress.spent (h : r.Shrunk file s) {t : ℕ} {as : List Read}
    (hp : r.InProgress t s as s') :
    r.Shrunk file s' ∧ s'.load t ≠ none ∧ s'.spent t = s.spent t + as.countP (Read.own t) := by
  induction hp with
  | here ht => exact ⟨h, ht, rfl⟩
  | step _ ha hn ht ih =>
    obtain ⟨h₁, ht₁, hspent⟩ := ih
    refine ⟨h₁.next ha hn, ht, ?_⟩
    rw [h₁.spent_next ha hn ht₁ ht, hspent, List.countP_cons]
    omega

/-- Loads of a shrinking file are graceful, and a load in progress has taken two steps of
its thread at most, a fault and its handler. -/
theorem shrinking_file_graceful (h : Reach (r.reading file) r.readObeys s) :
    r.Graceful file s ∧
    ∀ t as s', r.InProgress t s as s' → as.countP (Read.own t) ≤ 2 := by
  have hs := Registered.shrunk_of_reach h
  refine ⟨hs.graceful, fun t as s' hp => ?_⟩
  obtain ⟨hs', ht, hspent⟩ := hp.spent hs
  have hle := hs'.spent_le ht
  omega

/-- A byte of the second page is loaded, the file is cut inside the first page, and then a
byte of what is left is loaded. -/
def shrinking : List Read :=
  [.load 1 0x2fff, .truncate 0x1800, .access 1,
    .sigbus 1 ⟨0x1000, fun addr _ _ => addr⟩ BUS_ADRERR, .access 1, .load 2 0x17ff]

theorem shrinking_file_graceful_shrinking :
    ∃ s s', run (twoPages.reading fun _ => 1) ⟨ones, fun _ => none, fun _ => 0, fun _ => 1⟩
        shrinking = some s ∧ s.register 1 = 0 ∧ twoPages.Graceful (fun _ => 1) s ∧
      twoPages.read s (.access 2) = some s' ∧ s'.register 2 = 1 := by
  obtain ⟨s, s', hs, hs', hfirst, hload, hend, hdone⟩ : ∃ s s',
      run (twoPages.reading fun _ => 1) ⟨ones, fun _ => none, fun _ => 0, fun _ => 1⟩
        shrinking = some s ∧ twoPages.read s (.access 2) = some s' ∧ s.register 1 = 0 ∧
      s.load 2 = some 0x17ff ∧ s.pages.fileEnd = 0x1800 ∧ s'.load 2 = none :=
    ⟨_, _, rfl, rfl, rfl, rfl, rfl, rfl⟩
  have hreach : Reach (twoPages.reading fun _ => 1) twoPages.readObeys s := by
    refine .run (.initial ⟨?_, ?_, ?_, ?_, rfl, le_rfl⟩) ?_ hs
    · exact fun _ => rfl
    · exact fun _ => rfl
    · exact fun _ => rfl
    · exact fun _ => rfl
    · intro s a ha
      have hk : Kernel.Obeys ⟨0x1000, fun addr _ _ => addr⟩ twoPages.page :=
        ⟨rfl, fun _ _ _ => rfl⟩
      simp only [shrinking, List.mem_cons, List.not_mem_nil, or_false] at ha
      rcases ha with rfl | rfl | rfl | rfl | rfl | rfl
      · trivial
      · trivial
      · trivial
      · exact ⟨hk, .inl rfl⟩
      · trivial
      · trivial
  have hgraceful := (shrinking_file_graceful hreach).1
  refine ⟨s, s', hs, hfirst, hgraceful, hs', ?_⟩
  rw [hgraceful.returns 2 _ s' hload hs' hdone, hend]
  rfl

end SignalCrates.Mmapcatch
