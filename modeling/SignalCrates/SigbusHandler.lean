import SignalCrates.MmapRegistry
import SignalCrates.PageSize

/-!
# handle_sigbus

The handler up to its call of `mmap`, and the four stores that report the fault. The
numbers of the signal and of its codes are those of Linux. Saving and restoring `errno`
is left out.
-/
namespace SignalCrates.Mmapcatch

def SIGBUS : CInt := 7

def BUS_ADRERR : CInt := 2

def BUS_OBJERR : CInt := 3

/-- `-1` as a `c_long` and `MAP_FAILED` as an address. -/
def failed : Usize := BitVec.allOnes 64

/-- What `handle_sigbus` reads of `siginfo_t`. -/
structure Siginfo where
  siSigno : CInt
  siCode : CInt
  siAddr : Usize

structure SigbusInfo where
  addr : Usize
  siCode : CInt
  deriving DecidableEq

def parseSigbus (info : Siginfo) : Option SigbusInfo :=
  if info.siSigno ≠ SIGBUS ∨ ¬ (info.siCode = BUS_ADRERR ∨ info.siCode = BUS_OBJERR) then none
  else if info.siAddr = 0 then none
  else some ⟨info.siAddr, info.siCode⟩

/-- What the kernel answers to the calls of one run of the handler. -/
structure Kernel where
  sysconf : Usize
  mmap : Usize → Usize → CInt → Usize

/-- A page-aligned address to create a fixed zero `mmap`. -/
def fixStart (systemPageSize addr : Usize) : Usize :=
  let pageMask := ~~~(systemPageSize - 1)
  addr &&& pageMask

inductive Abort
  | someOtherSigbus
  | abort

/-- The replacement mapping, made for a fault of `mapping`. -/
structure Fix where
  mapping : Mapping
  info : SigbusInfo
  fixStart : Usize
  fixLen : Usize

/-- `handle_sigbus` from the signal to the return of `mmap`. -/
def handleSigbus (kernel : Kernel) (info : Siginfo) (root : Option Root) : Except Abort Fix :=
  match parseSigbus info with
  | none => .error .someOtherSigbus
  | some info =>
    match root with
    | none => .error .someOtherSigbus
    | some root =>
      match root.lookupAddr info.addr with
      | none => .error .someOtherSigbus
      | some mapping =>
        let systemPageSize := kernel.sysconf
        if systemPageSize = failed then .error .abort
        else if systemPageSize.cpop ≠ 1 then .error .abort
        else
          let fixStart := fixStart systemPageSize info.addr
          if fixStart = 0 then .error .abort
          else
            let fixOffset := fixStart - mapping.start
            let fixLen := mapping.len - fixOffset
            let res := kernel.mmap fixStart fixLen mapping.mmapProt
            if res = failed then .error .abort
            else if res ≠ fixStart then .error .abort
            else .ok ⟨mapping, info, fixStart, fixLen⟩

/-- The stores of the handler into the state of the mapping. -/
inductive Store
  | siCode (v : CInt)
  | fixAddr (v : Usize)
  | errAddr (v : Usize)
  | err

def Fix.stores (f : Fix) : List Store :=
  [.siCode f.info.siCode, .fixAddr f.fixStart, .errAddr f.info.addr, .err]

def State.store (s : State) : Store → State
  | .siCode v => { s with siCode := v }
  | .fixAddr v => { s with fixAddr := v }
  | .errAddr v => { s with errAddr := v }
  | .err => { s with err := true }

/-- The pages have the given size, and a mapping is made where it was asked for. -/
structure Kernel.Obeys (kernel : Kernel) (p : PageSize) : Prop where
  sysconf : kernel.sysconf = p.bytes
  mmap : ∀ addr len prot, kernel.mmap addr len prot = addr

/-- The length that a fault at `a` asks for. -/
def fixLen (p : PageSize) (m : Mapping) (a : Usize) : Usize :=
  m.len - (fixStart p.bytes a - m.start)

theorem toNat_fixStart (p : PageSize) (a : Usize) :
    (fixStart p.bytes a).toNat = a.toNat / p.size * p.size := p.toNat_and_mask a

section
variable {kernel : Kernel} {p : PageSize} {info : Siginfo} {sb : SigbusInfo} {root : Option Root}

/-- Of a fault in a mapping, only the answer of `mmap` decides what comes of it. -/
theorem handleSigbus_eq {r : Root} {m : Mapping} (hk : kernel.sysconf = p.bytes)
    (hp : parseSigbus info = some sb) (hm : r.lookupAddr sb.addr = some m)
    (hzero : fixStart p.bytes sb.addr ≠ 0) :
    handleSigbus kernel info (some r) =
      if kernel.mmap (fixStart p.bytes sb.addr) (fixLen p m sb.addr) m.mmapProt = failed then
        .error .abort
      else if kernel.mmap (fixStart p.bytes sb.addr) (fixLen p m sb.addr) m.mmapProt ≠
        fixStart p.bytes sb.addr then .error .abort
      else .ok ⟨m, sb, fixStart p.bytes sb.addr, fixLen p m sb.addr⟩ := by
  have hbytes : p.bytes ≠ failed := p.bytes_ne_allOnes
  simp only [handleSigbus, hp, hm, hk, p.cpop_bytes, if_neg hbytes, if_neg hzero, ne_eq,
    not_true_eq_false, if_false]
  rfl

theorem handleSigbus_eq_ok {r : Root} {m : Mapping} (hk : kernel.Obeys p)
    (hp : parseSigbus info = some sb) (hm : r.lookupAddr sb.addr = some m)
    (hzero : fixStart p.bytes sb.addr ≠ 0) (hfailed : fixStart p.bytes sb.addr ≠ failed) :
    handleSigbus kernel info (some r) = .ok ⟨m, sb, fixStart p.bytes sb.addr,
      m.len - (fixStart p.bytes sb.addr - m.start)⟩ := by
  rw [handleSigbus_eq hk.sysconf hp hm hzero, hk.mmap, if_neg hfailed, if_neg (not_not.mpr rfl)]
  rfl

/-- An address in no mapping ends the process. -/
theorem handleSigbus_eq_error (hnone : ∀ r, root = some r → r.lookupAddr sb.addr = none)
    (hp : parseSigbus info = some sb) :
    handleSigbus kernel info root = .error .someOtherSigbus := by
  cases root with
  | none => simp [handleSigbus, hp]
  | some r => simp [handleSigbus, hp, hnone r rfl]

theorem of_handleSigbus {f : Fix} (h : handleSigbus kernel info root = .ok f) :
    parseSigbus info = some f.info ∧
      (∃ r, root = some r ∧ r.lookupAddr f.info.addr = some f.mapping) ∧
      f.fixStart = fixStart kernel.sysconf f.info.addr ∧
      f.fixLen = f.mapping.len - (f.fixStart - f.mapping.start) := by
  unfold handleSigbus at h
  cases hp : parseSigbus info with
  | none => simp [hp] at h
  | some sb =>
    cases root with
    | none => simp [hp] at h
    | some r =>
      cases hm : r.lookupAddr sb.addr with
      | none => simp [hp, hm] at h
      | some m =>
        simp only [hp, hm] at h
        split_ifs at h
        cases h
        exact ⟨rfl, ⟨r, rfl, hm⟩, rfl, rfl⟩

/-- In a page-aligned mapping the page of an address starts inside the mapping. -/
theorem start_le_fixStart {m : Mapping} (hdvd : p.size ∣ m.start.toNat) {a : Usize}
    (ha : a.toNat ∈ m.range) : m.start.toNat ≤ (fixStart p.bytes a).toNat := by
  rw [toNat_fixStart]
  exact p.le_div_mul hdvd ha.1

/-- The replacement of a fault ends where the mapping ends. -/
theorem fixStart_add_fixLen {m : Mapping} (hf : Fits m.start m.len)
    (hdvd : p.size ∣ m.start.toNat) {a : Usize} (ha : a.toNat ∈ m.range) :
    (fixStart p.bytes a).toNat + (m.len - (fixStart p.bytes a - m.start)).toNat =
      m.start.toNat + m.len.toNat := by
  have hge := start_le_fixStart hdvd ha
  have hle : (fixStart p.bytes a).toNat ≤ a.toNat := by
    rw [toNat_fixStart]
    exact Nat.div_mul_le_self _ _
  have hstop : a.toNat < m.start.toNat + m.len.toNat := ha.2
  have hbound := hf.2
  generalize fixStart p.bytes a = x at hge hle ⊢
  bv_omega

/-- A fault in a registered mapping is handled. -/
theorem Root.Sound.handleSigbus_ok {r : Root} (h : r.Sound) {e : Usize × Mapping}
    (he : e ∈ r.map.entries) (hne : e.1 ≠ 0) (hdvd : p.size ∣ e.1.toNat) (hk : kernel.Obeys p)
    (hp : parseSigbus info = some sb) (ha : sb.addr.toNat ∈ e.2.range) :
    handleSigbus kernel info (some r) = .ok ⟨e.2, sb, fixStart p.bytes sb.addr,
      e.2.len - (fixStart p.bytes sb.addr - e.2.start)⟩ := by
  have hlookup : r.lookupAddr sb.addr = some e.2 :=
    h.lookupAddr_eq_some_iff.mpr ⟨e, he, rfl, ha⟩
  have hfits := h.fits e he
  rw [h.key e he] at hne hdvd hfits
  have hge := start_le_fixStart hdvd ha
  have hzero : fixStart p.bytes sb.addr ≠ 0 := by
    intro hz
    rw [hz] at hge
    bv_omega
  have hfailed : fixStart p.bytes sb.addr ≠ failed := by
    intro hz
    have hsum := fixStart_add_fixLen hfits hdvd ha
    have hpos := hfits.one_le
    have hbound := hfits.2
    have hstop := ha.2
    have hle := Nat.div_mul_le_self sb.addr.toNat p.size
    rw [← toNat_fixStart, hz, failed, BitVec.toNat_allOnes] at hle
    omega
  exact handleSigbus_eq_ok hk hp hlookup hzero hfailed

end

end SignalCrates.Mmapcatch
