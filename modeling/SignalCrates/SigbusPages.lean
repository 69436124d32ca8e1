import SignalCrates.SigbusHandler

/-!
# The pages that a handler replaces

The pages of a mapping come from the file until the handler replaces them. It replaces
every page from the one that faulted to the end of the mapping, whatever the other pages
hold by then.
-/
namespace SignalCrates.Mmapcatch
open TransitionSystem

abbrev Byte := BitVec 8

/-- A registered mapping, page-aligned as a real one is. -/
structure Registered where
  page : PageSize
  root : Root
  mapping : Mapping
  sound : root.Sound
  mem : (mapping.start, mapping) ∈ root.map.entries
  nonzero : mapping.start ≠ 0
  aligned : page.size ∣ mapping.start.toNat

/-- What is behind the addresses of a mapping. Pages are numbered from address zero, and
`fileEnd` is the address at which the file ends. `pending` holds the access of a thread
that got SIGBUS and waits for the lock of `ROOT`; `stored` is the last store completed at
an address, until its byte is truncated away or its page fails. -/
structure Pages where
  fileEnd : ℕ
  failing : ℕ → Bool
  replaced : ℕ → Bool
  file : ℕ → Byte
  anon : ℕ → Byte
  pending : ℕ → Option Usize
  stored : ℕ → Option Byte

inductive Access
  | load (t : ℕ) (x : Usize)
  | store (t : ℕ) (x : Usize) (b : Byte)
  | truncate (n : ℕ)
  | ioFailure (i : ℕ)
  | handle (t : ℕ) (kernel : Kernel) (siCode : CInt)

namespace Pages
variable (p : PageSize) (s : Pages)

def accessible (i : ℕ) : Bool :=
  s.replaced i || (decide (i * p.size < s.fileEnd) && !s.failing i)

def content (x : ℕ) : Byte :=
  if s.replaced (x / p.size) then s.anon x else s.file x

/-- The thread gets SIGBUS. -/
def fault (t : ℕ) (x : Usize) : Pages :=
  { s with pending := Function.update s.pending t (some x) }

/-- The handler returns and the thread repeats its access. -/
def resume (t : ℕ) : Pages :=
  { s with pending := Function.update s.pending t none }

def write (x : ℕ) (b : Byte) : Pages :=
  if s.replaced (x / p.size) then
    { s with anon := Function.update s.anon x b, stored := Function.update s.stored x (some b) }
  else
    { s with file := Function.update s.file x b, stored := Function.update s.stored x (some b) }

def truncate (n : ℕ) : Pages :=
  { s with
    fileEnd := n
    file := fun x => if x < n then s.file x else 0
    stored := fun x => if s.replaced (x / p.size) ∨ x < n then s.stored x else none }

def ioFailure (i : ℕ) : Pages :=
  { s with
    failing := Function.update s.failing i true
    stored := fun x => if x / p.size = i ∧ s.replaced i = false then none else s.stored x }

/-- The pages that a fixed mapping of `len` bytes at `addr` covers. -/
def covers (addr len i : ℕ) : Bool := decide (addr / p.size ≤ i ∧ i * p.size < addr + len)

/-- `mmap` with `MAP_FIXED | MAP_ANONYMOUS | MAP_PRIVATE`. -/
def mmap (addr len : ℕ) : Pages :=
  { s with
    replaced := fun i => covers p addr len i || s.replaced i
    anon := fun x => if covers p addr len (x / p.size) then 0 else s.anon x }

end Pages

variable (r : Registered)

/-- A run of `handle_sigbus` for the pending access of a thread. -/
def Registered.handle (s : Pages) (t : ℕ) (kernel : Kernel) (siCode : CInt) : Option Pages :=
  match s.pending t with
  | none => none
  | some x =>
    match handleSigbus kernel ⟨SIGBUS, siCode, x⟩ (some r.root) with
    | .error _ => none
    | .ok f => some ((s.mmap r.page f.fixStart.toNat f.fixLen.toNat).resume t)

def Registered.next (s : Pages) : Access → Option Pages
  | .load t x =>
    if s.pending t = none ∧ r.mapping.start ≤ x ∧ x < r.mapping.start + r.mapping.len then
      if s.accessible r.page (x.toNat / r.page.size) then some s else some (s.fault t x)
    else none
  | .store t x b =>
    if s.pending t = none ∧ r.mapping.start ≤ x ∧ x < r.mapping.start + r.mapping.len then
      if s.accessible r.page (x.toNat / r.page.size) then some (s.write r.page x.toNat b)
      else some (s.fault t x)
    else none
  | .truncate n => if n ≤ s.fileEnd then some (s.truncate r.page n) else none
  | .ioFailure i => some (s.ioFailure r.page i)
  | .handle t kernel siCode => r.handle s t kernel siCode

def Registered.pages : System Pages Access where
  initial s := (∀ i, s.replaced i = false) ∧ (∀ t, s.pending t = none) ∧ ∀ x, s.stored x = none
  next := r.next

/-- Runs on a kernel that obeys and gives the codes of a failed access. -/
def Registered.obeys (_ : Pages) : Access → Prop
  | .handle _ kernel siCode => kernel.Obeys r.page ∧ (siCode = BUS_ADRERR ∨ siCode = BUS_OBJERR)
  | _ => True

/-- The addresses of the pages of the mapping. -/
def Registered.addresses : Set ℕ :=
  { x | r.mapping.start.toNat ≤ x ∧
    x / r.page.size * r.page.size < r.mapping.start.toNat + r.mapping.len.toNat }

/-- Every page that could be accessed keeps its contents. -/
def Registered.Keeps (s s' : Pages) : Prop :=
  ∀ x ∈ r.addresses, s.accessible r.page (x / r.page.size) = true →
    s'.content r.page x = s.content r.page x

/-- From the page of the pending fault on, what can be accessed holds zeros. -/
def Registered.TailClear (s : Pages) (t : ℕ) : Prop :=
  ∀ a, s.pending t = some a → ∀ x ∈ r.addresses, a.toNat / r.page.size ≤ x / r.page.size →
    s.accessible r.page (x / r.page.size) = true → s.content r.page x = 0

/-- Runs whose handlers find the tail clear. -/
def Registered.tailClear (s : Pages) (a : Access) : Prop :=
  r.obeys s a ∧ ∀ t kernel siCode, a = .handle t kernel siCode → r.TailClear s t

variable {r} {s s' : Pages}

section Pages
variable {p : PageSize} {x : ℕ}

theorem Pages.pending_fault (t : ℕ) (a : Usize) (u : ℕ) :
    (s.fault t a).pending u = if u = t then some a else s.pending u :=
  Function.update_apply _ _ _ _

theorem Pages.pending_resume (t u : ℕ) :
    (s.resume t).pending u = if u = t then none else s.pending u :=
  Function.update_apply _ _ _ _

theorem Pages.stored_write (b : Byte) (y : ℕ) :
    (s.write p x b).stored y = if y = x then some b else s.stored y := by
  unfold write
  split_ifs with hr hyx hyx
  · rw [hyx]
    exact Function.update_self _ _ _
  · exact Function.update_of_ne hyx _ _
  · rw [hyx]
    exact Function.update_self _ _ _
  · exact Function.update_of_ne hyx _ _

theorem Pages.accessible_write (b : Byte) (i : ℕ) :
    (s.write p x b).accessible p i = s.accessible p i := by
  unfold write
  split_ifs <;> rfl

theorem Pages.content_write (b : Byte) (y : ℕ) :
    (s.write p x b).content p y = if y = x then b else s.content p y := by
  by_cases hyx : y = x
  · subst hyx
    cases hr : s.replaced (y / p.size) <;> simp [write, content, hr]
  · cases hr : s.replaced (x / p.size) <;> simp [write, content, hr, hyx]

theorem Pages.content_mmap (addr len : ℕ) :
    (s.mmap p addr len).content p x =
      if covers p addr len (x / p.size) then 0 else s.content p x := by
  cases hc : covers p addr len (x / p.size) <;> simp [content, mmap, hc]

theorem Pages.accessible_mmap {i : ℕ} (h : s.accessible p i = true)
    (addr len : ℕ) : (s.mmap p addr len).accessible p i = true := by
  rw [accessible, Bool.or_eq_true] at h ⊢
  exact h.imp (fun hr => by simp [mmap, hr]) id

end Pages

/-- The pending accesses are accesses of the mapping. -/
def Registered.Inside (r : Registered) (s : Pages) : Prop :=
  ∀ t a, s.pending t = some a → a.toNat ∈ r.mapping.range

theorem Registered.fits (r : Registered) : Fits r.mapping.start r.mapping.len :=
  r.sound.fits _ r.mem

/-- A fault in the mapping is handled. -/
theorem Registered.handleSigbus_ok {kernel : Kernel} {siCode : CInt} {a : Usize}
    (ha : a.toNat ∈ r.mapping.range) (hk : kernel.Obeys r.page)
    (hc : siCode = BUS_ADRERR ∨ siCode = BUS_OBJERR) :
    handleSigbus kernel ⟨SIGBUS, siCode, a⟩ (some r.root) = .ok ⟨r.mapping, ⟨a, siCode⟩,
      fixStart r.page.bytes a,
      r.mapping.len - (fixStart r.page.bytes a - r.mapping.start)⟩ := by
  have hzero : a ≠ 0 := by
    rintro rfl
    have hstart : r.mapping.start.toNat ≤ (0 : Usize).toNat := ha.1
    have hne := r.nonzero
    bv_omega
  have hparse : parseSigbus ⟨SIGBUS, siCode, a⟩ = some ⟨a, siCode⟩ := by
    rw [parseSigbus, if_neg (not_or.mpr ⟨not_not.mpr rfl, not_not.mpr hc⟩), if_neg hzero]
  exact r.sound.handleSigbus_ok r.mem r.nonzero r.aligned hk hparse ha

/-- The handler replaces the pages from the one that faulted on. -/
theorem Registered.handle_cases {t : ℕ} {kernel : Kernel} {siCode : CInt} (hi : r.Inside s)
    (hk : r.obeys s (.handle t kernel siCode)) (hn : r.handle s t kernel siCode = some s') :
    ∃ a addr len, s.pending t = some a ∧
      s' = (s.mmap r.page addr len).resume t ∧
      ∀ x ∈ r.addresses, Pages.covers r.page addr len (x / r.page.size) = true ↔
        a.toNat / r.page.size ≤ x / r.page.size := by
  cases hp : s.pending t with
  | none => simp [handle, hp] at hn
  | some a =>
    have ha := hi t a hp
    simp only [handle, hp, handleSigbus_ok ha hk.1 hk.2, Option.some.injEq] at hn
    refine ⟨a, _, _, rfl, hn.symm, fun x hx => ?_⟩
    rw [Pages.covers, decide_eq_true_eq, fixStart_add_fixLen r.fits r.aligned ha, toNat_fixStart,
      Nat.mul_div_cancel _ r.page.size_pos]
    exact and_iff_left hx.2

/-- The handler keeps the contents of the accessible pages exactly if the tail is clear. -/
theorem Registered.handle_keeps_iff {t : ℕ} {kernel : Kernel} {siCode : CInt} (hi : r.Inside s)
    (hk : r.obeys s (.handle t kernel siCode)) (hn : r.handle s t kernel siCode = some s') :
    r.Keeps s s' ↔ r.TailClear s t := by
  obtain ⟨a, addr, len, hp, rfl, hcovers⟩ := handle_cases hi hk hn
  have hcontent : ∀ x ∈ r.addresses, ((s.mmap r.page addr len).resume t).content r.page x =
      if a.toNat / r.page.size ≤ x / r.page.size then 0 else s.content r.page x := by
    intro x hx
    have hmmap := Pages.content_mmap (s := s) (p := r.page) (x := x) addr len
    simp only [hcovers x hx] at hmmap
    exact hmmap
  constructor
  · intro hkeep a' hp' x hx hle hacc
    cases hp.symm.trans hp'
    have hsame := hkeep x hx hacc
    rw [hcontent x hx, if_pos hle] at hsame
    exact hsame.symm
  · intro htail x hx hacc
    rw [hcontent x hx]
    split_ifs with hle
    · exact (htail a hp x hx hle hacc).symm
    · rfl

/-- Every completed store that no truncation or failure took away is still there. -/
def Registered.Kept (r : Registered) (s : Pages) : Prop :=
  ∀ x b, s.stored x = some b → x ∈ r.addresses ∧
    s.accessible r.page (x / r.page.size) = true ∧ s.content r.page x = b

theorem Registered.mem_addresses {a : Usize} (ha : a.toNat ∈ r.mapping.range) :
    a.toNat ∈ r.addresses :=
  ⟨ha.1, (Nat.div_mul_le_self _ _).trans_lt ha.2⟩

theorem Registered.Inside.fault (h : r.Inside s) {a : Usize} (ha : a.toNat ∈ r.mapping.range)
    (t : ℕ) : r.Inside (s.fault t a) := by
  intro u b hb
  rw [Pages.pending_fault] at hb
  split_ifs at hb
  · cases hb
    exact ha
  · exact h u b hb

theorem Registered.Inside.next (h : r.Inside s) {a : Access} (ha : r.obeys s a)
    (hn : r.next s a = some s') : r.Inside s' := by
  cases a with
  | load t x =>
    simp only [Registered.next] at hn
    split_ifs at hn with hx <;> cases hn
    · exact h
    · exact h.fault (r.fits.mem_range.mpr hx.2) t
  | store t x b =>
    simp only [Registered.next] at hn
    split_ifs at hn with hx <;> cases hn
    · unfold Pages.write
      split_ifs <;> exact h
    · exact h.fault (r.fits.mem_range.mpr hx.2) t
  | truncate n =>
    simp only [Registered.next] at hn
    split_ifs at hn
    cases hn
    exact h
  | ioFailure i =>
    cases hn
    exact h
  | handle t kernel siCode =>
    obtain ⟨a, addr, len, -, rfl, -⟩ := handle_cases h ha hn
    intro u b hb
    rw [Pages.pending_resume] at hb
    split_ifs at hb
    exact h u b hb

theorem Registered.Kept.write (h : r.Kept s) {x : ℕ} (hx : x ∈ r.addresses)
    (hacc : s.accessible r.page (x / r.page.size) = true) (b : Byte) :
    r.Kept (s.write r.page x b) := by
  intro y c hy
  rw [Pages.stored_write] at hy
  rw [Pages.accessible_write, Pages.content_write]
  split_ifs at hy ⊢ with hyx
  · cases hy
    rw [hyx]
    exact ⟨hx, hacc, rfl⟩
  · exact h y c hy

theorem Registered.Kept.truncate (h : r.Kept s) (n : ℕ) : r.Kept (s.truncate r.page n) := by
  intro x b hb
  simp only [Pages.truncate] at hb
  split_ifs at hb with hx
  obtain ⟨hmem, hacc, hcontent⟩ := h x b hb
  refine ⟨hmem, ?_, ?_⟩
  · rw [Pages.accessible, Bool.or_eq_true, Bool.and_eq_true, decide_eq_true_eq] at hacc ⊢
    have hle := Nat.div_mul_le_self x r.page.size
    rcases hx with hr | hlt
    · exact .inl hr
    · exact hacc.imp_right fun hf => ⟨hle.trans_lt hlt, hf.2⟩
  · rw [← hcontent]
    cases hr : s.replaced (x / r.page.size) with
    | true => simp [Pages.content, Pages.truncate, hr]
    | false =>
      have hlt : x < n := by simpa [hr] using hx
      simp [Pages.content, Pages.truncate, hr, hlt]

theorem Registered.Kept.ioFailure (h : r.Kept s) (i : ℕ) : r.Kept (s.ioFailure r.page i) := by
  intro x b hb
  simp only [Pages.ioFailure] at hb
  split_ifs at hb with hx
  obtain ⟨hmem, hacc, hcontent⟩ := h x b hb
  refine ⟨hmem, ?_, hcontent⟩
  rw [Pages.accessible, Bool.or_eq_true] at hacc ⊢
  by_cases hi : x / r.page.size = i
  · exact .inl (by simpa [hi, Pages.ioFailure] using hx)
  · have hfailing : (s.ioFailure r.page i).failing (x / r.page.size) =
        s.failing (x / r.page.size) := Function.update_of_ne hi _ _
    rw [hfailing]
    exact hacc

/-- A handler that finds the tail clear undoes no store. -/
theorem Registered.Kept.handle (h : r.Kept s) {t : ℕ} {kernel : Kernel} {siCode : CInt}
    (hi : r.Inside s) (ha : r.tailClear s (.handle t kernel siCode))
    (hn : r.handle s t kernel siCode = some s') : r.Kept s' := by
  have hkeep := (handle_keeps_iff hi ha.1 hn).mpr (ha.2 t kernel siCode rfl)
  obtain ⟨a, addr, len, -, rfl, -⟩ := handle_cases hi ha.1 hn
  intro x b hb
  obtain ⟨hmem, hacc, hcontent⟩ := h x b hb
  exact ⟨hmem, Pages.accessible_mmap hacc addr len, (hkeep x hmem hacc).trans hcontent⟩

theorem Registered.Kept.next (h : r.Kept s) (hi : r.Inside s) {a : Access}
    (ha : r.tailClear s a) (hn : r.next s a = some s') : r.Kept s' := by
  cases a with
  | load t x =>
    simp only [Registered.next] at hn
    split_ifs at hn <;> cases hn <;> exact h
  | store t x b =>
    simp only [Registered.next] at hn
    split_ifs at hn with hx hacc <;> cases hn
    · exact h.write (mem_addresses (r.fits.mem_range.mpr hx.2)) hacc b
    · exact h
  | truncate n =>
    simp only [Registered.next] at hn
    split_ifs at hn
    cases hn
    exact h.truncate n
  | ioFailure i =>
    cases hn
    exact h.ioFailure i
  | handle t kernel siCode => exact h.handle hi ha hn

theorem Registered.inside_of_reach (h : Reach r.pages r.obeys s) : r.Inside s := by
  refine h.invariant ?_ fun s a s' _ hI ha hn => hI.next ha hn
  rintro s ⟨-, hpending, -⟩ t a ha
  rw [hpending t] at ha
  cases ha

theorem Registered.kept_of_reach (h : Reach r.pages r.tailClear s) : r.Kept s := by
  refine h.invariant ?_ fun s a s' hr hI ha hn => hI.next ?_ ha hn
  · rintro s ⟨-, -, hstored⟩ x b hb
    rw [hstored x] at hb
    cases hb
  · exact inside_of_reach (hr.mono fun _ _ ha => ha.1)

/-- The handler keeps the contents of the accessible pages exactly if the tail is clear, and
where all handlers find it clear no completed store is undone. -/
theorem handle_sigbus_keeps_pages (r : Registered) :
    (∀ s, Reach r.pages r.obeys s → ∀ t kernel siCode, r.obeys s (.handle t kernel siCode) →
      ∀ s', r.pages.next s (.handle t kernel siCode) = some s' →
        (r.Keeps s s' ↔ r.TailClear s t)) ∧
    ∀ s, Reach r.pages r.tailClear s → ∀ x b, s.stored x = some b →
      s.accessible r.page (x / r.page.size) = true ∧ s.content r.page x = b :=
  ⟨fun _ h _ _ _ hk _ hn => Registered.handle_keeps_iff (Registered.inside_of_reach h) hk hn,
    fun _ h x b hb => (Registered.kept_of_reach h x b hb).2⟩

/-- Two pages of `0x1000` bytes. -/
def twoPages : Registered where
  page := ⟨12, by decide⟩
  root := { Root.new with map := Root.new.map.insert 0x1000 ⟨0x1000, 0x2000, 3, 0⟩ }
  mapping := ⟨0x1000, 0x2000, 3, 0⟩
  sound := Root.sound_new.insert ⟨by decide, by decide⟩ rfl
  mem := OrderedMap.mem_insert.mpr (.inl rfl)
  nonzero := by decide
  aligned := by decide

/-- The mapping of a file of ones, before any fault. -/
def ones : Pages :=
  { fileEnd := 0x3000
    failing := fun _ => false
    replaced := fun _ => false
    file := fun _ => 1
    anon := fun _ => 0
    pending := fun _ => none
    stored := fun _ => none }

def handled (t : ℕ) : Access := .handle t ⟨0x1000, fun addr _ _ => addr⟩ BUS_ADRERR

theorem twoPages_obeys (t : ℕ) : twoPages.obeys ones (handled t) :=
  ⟨⟨rfl, fun _ _ _ => rfl⟩, .inl rfl⟩

/-- The second page is truncated away, and read after a store into the first. -/
def truncated : List Access := [.truncate 0x2000, .store 1 0x1000 7, .load 1 0x2000]

/-- The handler replaces the page that is gone, and the store is still there. -/
theorem handle_sigbus_keeps_pages_truncated :
    ∃ s s', run twoPages.pages ones truncated = some s ∧
      twoPages.pages.next s (handled 1) = some s' ∧ s'.replaced 2 = true ∧
      twoPages.Keeps s s' ∧ s'.stored 0x1000 = some 7 ∧
      s'.accessible twoPages.page (0x1000 / twoPages.page.size) = true ∧
      s'.content twoPages.page 0x1000 = 7 := by
  obtain ⟨s, s', hs, hs', hnew, hstored, hpending, hend, hreplaced⟩ : ∃ s s',
      run twoPages.pages ones truncated = some s ∧ twoPages.pages.next s (handled 1) = some s' ∧
      s'.replaced 2 = true ∧ s'.stored 0x1000 = some 7 ∧
      s.pending 1 = some 0x2000 ∧ s.fileEnd = 0x2000 ∧ s.replaced = fun _ => false :=
    ⟨_, _, rfl, rfl, rfl, rfl, rfl, rfl, rfl⟩
  have hreach : Reach twoPages.pages twoPages.tailClear s := by
    refine .run (.initial ⟨fun _ => rfl, fun _ => rfl, fun _ => rfl⟩) ?_ hs
    simp [truncated, Registered.tailClear, Registered.obeys]
  have htail : twoPages.TailClear s 1 := by
    intro a ha x hx hle hacc
    cases hpending.symm.trans ha
    have hsize : twoPages.page.size = 0x1000 := rfl
    have hlow : (0x2000 : Usize).toNat = 0x2000 := rfl
    rw [hlow, hsize] at hle
    rw [Pages.accessible, hreplaced, hend, hsize, Bool.false_or, Bool.and_eq_true,
      decide_eq_true_eq] at hacc
    omega
  have hhandled : Reach twoPages.pages twoPages.tailClear s' := by
    refine .step hreach (a := handled 1) ⟨twoPages_obeys 1, ?_⟩ hs'
    rintro t kernel siCode ⟨⟩
    exact htail
  obtain ⟨hkeeps, hstores⟩ := handle_sigbus_keeps_pages twoPages
  exact ⟨s, s', hs, hs', hnew,
    (hkeeps s (hreach.mono fun _ _ h => h.1) _ _ _ (twoPages_obeys 1) s' hs').mpr htail, hstored,
    hstores s' hhandled 0x1000 7 hstored⟩

/-- The first page fails while the second is read from the file. -/
def failure : List Access := [.ioFailure 1, .load 1 0x1000]

/-- A store into a replaced page, and then a fault of the page below. -/
def lowerPage : List Access :=
  [.truncate 0x2000, .store 1 0x2000 7, handled 1, .store 1 0x2000 7, .truncate 0x1000,
    .load 2 0x1000]

/-- Two threads fault on one page, and one stores into it before the other is handled. -/
def queued : List Access :=
  [.truncate 0x2000, .store 1 0x2000 7, .load 2 0x2000, handled 1, .store 1 0x2000 7]

/-- The handler of a thread wipes a byte of a page that can be accessed. -/
def Registered.Wipes (r : Registered) (s : Pages) (t x : ℕ) : Prop :=
  s.accessible r.page (x / r.page.size) = true ∧ s.content r.page x ≠ 0 ∧
    ∃ s', r.pages.next s (handled t) = some s' ∧ s'.content r.page x = 0

theorem handle_sigbus_wipes_pages :
    (∃ s, run twoPages.pages ones failure = some s ∧ twoPages.Wipes s 1 0x2000) ∧
    (∃ s, run twoPages.pages ones lowerPage = some s ∧ s.stored 0x2000 = some 7 ∧
      twoPages.Wipes s 2 0x2000) ∧
    ∃ s, run twoPages.pages ones queued = some s ∧ s.stored 0x2000 = some 7 ∧
      twoPages.Wipes s 2 0x2000 := by
  refine ⟨⟨_, rfl, ?_⟩, ⟨_, rfl, rfl, ?_⟩, ⟨_, rfl, rfl, ?_⟩⟩
  · exact ⟨rfl, by decide, _, rfl, rfl⟩
  · exact ⟨rfl, by decide, _, rfl, rfl⟩
  · exact ⟨rfl, by decide, _, rfl, rfl⟩

end SignalCrates.Mmapcatch
