import SignalCrates.OrderedMap

/-!
# mmapcatch

The registered mappings behind `ROOT`, and the critical sections of `register_mmap` and
of `Guard::drop`. An `Arc<State>` is the number of its allocation. The lock is taken by
threads that are not in a signal handler, so its `unwrap` does not fail.
-/
namespace SignalCrates.Mmapcatch

abbrev Usize := BitVec 64

/-- `c_int`, and the raw value of an `io::Error`. -/
abbrev CInt := BitVec 32

abbrev StateId := ℕ

instance : LinearOrder Usize where
  le_refl := BitVec.le_refl
  le_trans _ _ _ := BitVec.le_trans
  lt_iff_le_not_ge a b := by
    rw [BitVec.lt_def, BitVec.le_def, BitVec.le_def]
    omega
  le_antisymm _ _ := BitVec.le_antisymm
  le_total a b := BitVec.le_total a b
  toDecidableLE := inferInstance
  toDecidableLT := inferInstance
  toDecidableEq := inferInstance

structure Mapping where
  start : Usize
  len : Usize
  mmapProt : CInt
  state : StateId
  deriving DecidableEq

structure State where
  err : Bool
  errAddr : Usize
  fixAddr : Usize
  siCode : CInt
  deriving DecidableEq

def State.new : State := ⟨false, 0, 0, 0⟩

structure Root where
  map : OrderedMap Usize Mapping
  cleanlyUnlocked : Bool

def Root.new : Root := ⟨.empty, true⟩

/-- Find a mapping that includes `addr`. -/
def Root.lookupAddr (r : Root) (addr : Usize) : Option Mapping :=
  ((r.map.lastLE addr).filter fun e => e.1 ≤ addr ∧ addr < e.1 + e.2.len).map Prod.snd

/-- Find a mapping that would overlap with `addr` and `len`. -/
def Root.lookupOverlap (r : Root) (addr len : Usize) : Option Mapping :=
  let endAddr := addr + len - 1
  ((r.map.lastLE endAddr).filter fun e => addr < e.1 + e.2.len ∧ e.1 < addr + len).map Prod.snd

inductive PipeNewError
  | pipeFailed (e : CInt)
  | fcntlFailed (e : CInt)

inductive RegisterError
  | overlap (addr len : Usize)
  | pipeFailed (e : CInt)
  | fcntlFailed (e : CInt)

def RegisterError.fromPipeNewError : PipeNewError → RegisterError
  | .pipeFailed e => .fcntlFailed e
  | .fcntlFailed e => .pipeFailed e

structure Guard where
  addr : Usize
  state : StateId
  deriving DecidableEq

/-- How a call ends. -/
inductive Outcome (α : Type*)
  | returned (a : α)
  | panicked (msg : String)

variable {α : Type*}

/-- `ROOT` after `get_or_init`; `created` is what `SignalLock::new` answers if it is called. -/
def getOrInit (created : Except PipeNewError Unit) : Option Root → Except PipeNewError Root
  | some r => .ok r
  | none => created.map fun _ => Root.new

/-- A critical section that panics unlocks `ROOT` without setting `cleanly_unlocked` again. -/
def withRoot (created : Except PipeNewError Unit) (f : Root → Outcome α × Root)
    (root : Option Root) : Outcome (Except PipeNewError α) × Option Root :=
  match getOrInit created root with
  | .error e => (.returned (.error e), root)
  | .ok r =>
    if r.cleanlyUnlocked = false then (.panicked "Root was poisoned", some r)
    else
      match f { r with cleanlyUnlocked := false } with
      | (.returned a, r) => (.returned (.ok a), some { r with cleanlyUnlocked := true })
      | (.panicked msg, r) => (.panicked msg, some r)

/-- The critical section of `register_mmap`; `state` is the new allocation. -/
def Root.register (addr len : Usize) (prot : CInt) (state : StateId) (r : Root) :
    Outcome (Except RegisterError Guard) × Root :=
  match r.lookupOverlap addr len with
  | some overlap => (.returned (.error (.overlap overlap.start overlap.len)), r)
  | none =>
    (.returned (.ok ⟨addr, state⟩), { r with map := r.map.insert addr ⟨addr, len, prot, state⟩ })

def registerMmap (created : Except PipeNewError Unit) (addr len : Usize) (prot : CInt)
    (state : StateId) (root : Option Root) :
    Outcome (Except RegisterError Guard) × Option Root :=
  match withRoot created (Root.register addr len prot state) root with
  | (.returned (.ok res), root) => (.returned res, root)
  | (.returned (.error e), root) => (.returned (.error (.fromPipeNewError e)), root)
  | (.panicked msg, root) => (.panicked msg, root)

/-- The critical section of `Guard::drop`. -/
def Root.unregister (g : Guard) (r : Root) : Outcome Mapping × Root :=
  match r.map.get? g.addr with
  | none => (.panicked "addr in ROOT", r)
  | some mapping =>
    if mapping.state = g.state then (.returned mapping, { r with map := r.map.erase g.addr })
    else
      (.panicked "assertion failed: Arc::ptr_eq(&mapping.state, &self.state)",
        { r with map := r.map.erase g.addr })

def Guard.drop (created : Except PipeNewError Unit) (g : Guard) (root : Option Root) :
    Outcome Unit × Option Root :=
  match withRoot created (Root.unregister g) root with
  | (.returned _, root) => (.returned (), root)
  | (.panicked msg, root) => (.panicked msg, root)

/-- A live `Guard`, with the length and the protection it was registered with. -/
structure Registration where
  guard : Guard
  len : Usize
  prot : CInt
  deriving DecidableEq

def Registration.entry (reg : Registration) : Usize × Mapping :=
  (reg.guard.addr, ⟨reg.guard.addr, reg.len, reg.prot, reg.guard.state⟩)

/-- The static `ROOT`, the allocated states and the guards that clients hold. -/
structure Registry where
  root : Option Root
  heap : StateId → State
  live : List Registration

def Registry.entries (w : Registry) : List (Usize × Mapping) :=
  (w.root.map fun r => r.map.entries).getD []

/-- The states that an `Arc` refers to. -/
def Registry.arcs (w : Registry) : List StateId :=
  w.entries.map (fun e => e.2.state) ++ w.live.map fun reg => reg.guard.state

def Registry.registerMmap (created : Except PipeNewError Unit) (addr len : Usize) (prot : CInt)
    (state : StateId) (w : Registry) : Outcome (Except RegisterError Guard) × Registry :=
  match Mmapcatch.registerMmap created addr len prot state w.root with
  | (.returned (.ok g), root) =>
    (.returned (.ok g),
      ⟨root, Function.update w.heap state State.new, ⟨g, len, prot⟩ :: w.live⟩)
  | (res, root) => (res, { w with root := root })

/-- Drop the `i`th live guard. -/
def Registry.drop (created : Except PipeNewError Unit) (i : ℕ) (w : Registry) :
    Option (Outcome Unit × Registry) :=
  w.live[i]?.map fun reg =>
    let (res, root) := reg.guard.drop created w.root
    (res, { w with root := root, live := w.live.eraseIdx i })

end SignalCrates.Mmapcatch
