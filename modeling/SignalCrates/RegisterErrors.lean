import SignalCrates.MmapRegistry

/-!
# Errors of register_mmap

Where `SignalLock` is a `PipeLock`, a call of `register_mmap` that finds `ROOT`
uninitialised makes a pipe. The model follows the system calls that a call makes.
-/
namespace SignalCrates.Mmapcatch
open TransitionSystem

/-- What the kernel answers to the calls that are made, with `errno` for a failure. -/
structure PipeAnswers where
  pipe2 : Except CInt (CInt × CInt)
  fcntl : Except CInt Unit

inductive Syscall
  | pipe2 (res : Except CInt (CInt × CInt))
  | fcntl (fd : CInt) (res : Except CInt Unit)
  | close (fd : CInt)

/-- Return the reader and the writer. Both are `Fd`s, which an early return closes. -/
def pipe (k : PipeAnswers) : Except PipeNewError (CInt × CInt) × List Syscall :=
  match k.pipe2 with
  | .error e => (.error (.pipeFailed e), [.pipe2 (.error e)])
  | .ok fds =>
    match k.fcntl with
    | .error e =>
      (.error (.fcntlFailed e),
        [.pipe2 (.ok fds), .fcntl fds.2 (.error e), .close fds.1, .close fds.2])
    | .ok () => (.ok fds, [.pipe2 (.ok fds), .fcntl fds.2 (.ok ())])

/-- `StaticRoot::init`. The slot is written once `PipeLock::new` has succeeded. -/
def initRoot (k : PipeAnswers) (root : Option Root) :
    Except PipeNewError Unit × Option Root × List Syscall :=
  match root with
  | some r => (.ok (), some r, [])
  | none =>
    match pipe k with
    | (.error e, calls) => (.error e, none, calls)
    | (.ok _, calls) => (.ok (), some Root.new, calls)

/-- What `SignalLock::new` answers. -/
def signalLockNew (k : PipeAnswers) : Except PipeNewError Unit := (pipe k).1.map fun _ => ()

/-- The registry and the descriptors that are open. -/
structure Process where
  registry : Registry
  fds : List CInt

def openFds (fds : List CInt) : Syscall → List CInt
  | .pipe2 (.ok (r, w)) => r :: w :: fds
  | .close fd => fds.erase fd
  | _ => fds

structure Call where
  answers : PipeAnswers
  addr : Usize
  len : Usize
  prot : CInt
  state : StateId

/-- `register_mmap` with the system calls that it makes. -/
def Process.registerMmap (w : Process) (c : Call) :
    Outcome (Except RegisterError Guard) × Process × List Syscall :=
  let calls := (initRoot c.answers w.registry.root).2.2
  let (res, registry) :=
    w.registry.registerMmap (signalLockNew c.answers) c.addr c.len c.prot c.state
  (res, ⟨registry, calls.foldl openFds w.fds⟩, calls)

def registrations : System Process Call where
  initial w := w.registry.root = none ∧ w.registry.live = []
  next w c := if c.state ∈ w.registry.arcs then none else some (w.registerMmap c).2.1

/-- The failure of a system call is the error that the caller sees. -/
structure Reported (res : Outcome (Except RegisterError Guard)) (calls : List Syscall) :
    Prop where
  pipe2 : ∀ e, .pipe2 (.error e) ∈ calls → res = .returned (.error (.pipeFailed e))
  fcntl : ∀ fd e, .fcntl fd (.error e) ∈ calls → res = .returned (.error (.fcntlFailed e))

/-- A failure leaves nothing behind, and after a success nothing is made again. -/
structure Retryable (w : Process) (c : Call) (res : Outcome (Except RegisterError Guard))
    (w' : Process) (calls : List Syscall) : Prop where
  afresh : w.registry.root = none → ∃ rest, calls = .pipe2 c.answers.pipe2 :: rest
  pipe2 : ∀ e, .pipe2 (.error e) ∈ calls → w.registry.root = none ∧ w' = w
  fcntl : ∀ fd e, .fcntl fd (.error e) ∈ calls → w.registry.root = none ∧ w' = w ∧
    ∃ fds, .pipe2 (.ok fds) ∈ calls ∧ .close fds.1 ∈ calls ∧ .close fds.2 ∈ calls
  made : ∀ fds, c.answers.pipe2 = .ok fds → c.answers.fcntl = .ok () → w'.registry.root ≠ none ∧
    ∀ e, res ≠ .returned (.error (.pipeFailed e)) ∧ res ≠ .returned (.error (.fcntlFailed e))
  once : w.registry.root ≠ none → calls = [] ∧ w'.registry.root ≠ none ∧
    ∀ e, res ≠ .returned (.error (.pipeFailed e)) ∧ res ≠ .returned (.error (.fcntlFailed e))

section
variable {k : PipeAnswers} {root : Option Root} {w w' : Process} {c : Call}

/-- `get_or_init` is `init` followed by a read of the slot. -/
theorem getOrInit_signalLockNew (k : PipeAnswers) (root : Option Root) :
    getOrInit (signalLockNew k) root =
      (initRoot k root).1.map fun _ => ((initRoot k root).2.1).getD Root.new := by
  cases root with
  | some r => rfl
  | none =>
    unfold signalLockNew initRoot
    rcases pipe k with ⟨⟨e⟩ | ⟨fds⟩, calls⟩ <;> rfl

/-- The three ways in which a pipe is made or not. -/
theorem pipe_cases (k : PipeAnswers) :
    (∃ e, k.pipe2 = .error e ∧ pipe k = (.error (.pipeFailed e), [.pipe2 (.error e)])) ∨
    (∃ fds e, k.pipe2 = .ok fds ∧ k.fcntl = .error e ∧ pipe k = (.error (.fcntlFailed e),
      [.pipe2 (.ok fds), .fcntl fds.2 (.error e), .close fds.1, .close fds.2])) ∨
    ∃ fds, k.pipe2 = .ok fds ∧ k.fcntl = .ok () ∧
      pipe k = (.ok fds, [.pipe2 (.ok fds), .fcntl fds.2 (.ok ())]) := by
  unfold pipe
  cases k.pipe2 with
  | error e => exact .inl ⟨e, rfl, rfl⟩
  | ok fds =>
    cases k.fcntl with
    | error e => exact .inr (.inl ⟨fds, e, rfl, rfl, rfl⟩)
    | ok u => exact .inr (.inr ⟨fds, rfl, rfl, rfl⟩)

/-- A failed creation is all that happens. -/
theorem Registry.registerMmap_of_error {w : Registry} {created : Except PipeNewError Unit}
    {e : PipeNewError} (h : Mmapcatch.getOrInit created w.root = .error e) (addr len : Usize)
    (prot : CInt) (state : StateId) :
    w.registerMmap created addr len prot state =
      (.returned (.error (.fromPipeNewError e)), w) := by
  simp [Registry.registerMmap, Mmapcatch.registerMmap, withRoot, h]

/-- A call that finds or creates `ROOT` leaves one and reports no failure to create it. -/
theorem Registry.registerMmap_of_ok {w : Registry} {created : Except PipeNewError Unit} {r : Root}
    (h : Mmapcatch.getOrInit created w.root = .ok r) (addr len : Usize) (prot : CInt)
    (state : StateId) :
    (w.registerMmap created addr len prot state).2.root ≠ none ∧
      ∀ e, (w.registerMmap created addr len prot state).1 ≠
        .returned (.error (.fromPipeNewError e)) := by
  unfold Registry.registerMmap Mmapcatch.registerMmap withRoot Root.register
  simp only [h]
  by_cases hc : r.cleanlyUnlocked = false
  · simp [hc]
  · simp only [if_neg hc]
    cases hm : Root.lookupOverlap { r with cleanlyUnlocked := false } addr len with
    | none => simp
    | some m =>
      refine ⟨by simp, fun e => ?_⟩
      cases e <;> simp [RegisterError.fromPipeNewError]

/-- A call that needs no pipe, one that fails to make it, and one that makes it. -/
theorem Process.registerMmap_cases (w : Process) (c : Call) :
    (w.registry.root ≠ none ∧ (w.registerMmap c).2.2 = [] ∧
      (w.registerMmap c).2.1.registry.root ≠ none ∧
      ∀ e, (w.registerMmap c).1 ≠ .returned (.error (.fromPipeNewError e))) ∨
    (w.registry.root = none ∧ ∃ e, c.answers.pipe2 = .error e ∧
      w.registerMmap c = (.returned (.error (.fcntlFailed e)), w, [.pipe2 (.error e)])) ∨
    (w.registry.root = none ∧ ∃ fds e, c.answers.pipe2 = .ok fds ∧ c.answers.fcntl = .error e ∧
      w.registerMmap c = (.returned (.error (.pipeFailed e)), w,
        [.pipe2 (.ok fds), .fcntl fds.2 (.error e), .close fds.1, .close fds.2])) ∨
    w.registry.root = none ∧ ∃ fds, c.answers.pipe2 = .ok fds ∧ c.answers.fcntl = .ok () ∧
      (w.registerMmap c).2.2 = [.pipe2 (.ok fds), .fcntl fds.2 (.ok ())] ∧
      (w.registerMmap c).2.1.registry.root ≠ none ∧
      ∀ e, (w.registerMmap c).1 ≠ .returned (.error (.fromPipeNewError e)) := by
  cases hroot : w.registry.root with
  | some r =>
    left
    have hr : Mmapcatch.getOrInit (signalLockNew c.answers) w.registry.root = .ok r := by
      rw [hroot]
      rfl
    obtain ⟨hsome, hres⟩ := Registry.registerMmap_of_ok hr c.addr c.len c.prot c.state
    refine ⟨by simp, ?_, hsome, hres⟩
    simp [Process.registerMmap, initRoot, hroot]
  | none =>
    right
    have hget := getOrInit_signalLockNew c.answers none
    rcases pipe_cases c.answers with ⟨e, hp, he⟩ | ⟨fds, e, hp, hf, he⟩ | ⟨fds, hp, hf, he⟩ <;>
      simp only [initRoot, he] at hget <;> rw [← hroot] at hget
    · have hres := Registry.registerMmap_of_error hget c.addr c.len c.prot c.state
      exact .inl ⟨rfl, e, hp, by simp [Process.registerMmap, initRoot, hroot, he, hres, openFds,
        RegisterError.fromPipeNewError]⟩
    · have hres := Registry.registerMmap_of_error hget c.addr c.len c.prot c.state
      refine .inr (.inl ⟨rfl, fds, e, hp, hf, ?_⟩)
      simp [Process.registerMmap, initRoot, hroot, he, hres, openFds,
        RegisterError.fromPipeNewError]
    · obtain ⟨hsome, hres⟩ := Registry.registerMmap_of_ok hget c.addr c.len c.prot c.state
      refine .inr (.inr ⟨rfl, fds, hp, hf, ?_, hsome, hres⟩)
      simp [Process.registerMmap, initRoot, hroot, he]

theorem Process.retryable (w : Process) (c : Call) :
    Retryable w c (w.registerMmap c).1 (w.registerMmap c).2.1 (w.registerMmap c).2.2 := by
  rcases w.registerMmap_cases c with ⟨hroot, hcalls, hsome, hres⟩ | ⟨hroot, e, hp, he⟩ |
    ⟨hroot, fds, e, hp, hf, he⟩ | ⟨hroot, fds, hp, hf, hcalls, hsome, hres⟩
  · rw [hcalls]
    have hmade := fun e => And.intro (hres (.fcntlFailed e)) (hres (.pipeFailed e))
    exact
      { afresh := fun h => absurd h hroot
        pipe2 := fun _ h => absurd h List.not_mem_nil
        fcntl := fun _ _ h => absurd h List.not_mem_nil
        made := fun _ _ _ => ⟨hsome, hmade⟩
        once := fun _ => ⟨rfl, hsome, hmade⟩ }
  · rw [he]
    exact
      { afresh := fun _ => ⟨_, by rw [hp]⟩
        pipe2 := fun _ _ => ⟨hroot, rfl⟩
        fcntl := by simp
        made := by simp [hp]
        once := fun h => absurd hroot h }
  · rw [he]
    exact
      { afresh := fun _ => ⟨_, by rw [hp]⟩
        pipe2 := by simp
        fcntl := fun _ _ _ => ⟨hroot, rfl, fds, by simp⟩
        made := by simp [hf]
        once := fun h => absurd hroot h }
  · rw [hcalls]
    have hmade := fun e => And.intro (hres (.fcntlFailed e)) (hres (.pipeFailed e))
    exact
      { afresh := fun _ => ⟨_, by rw [hp]⟩
        pipe2 := by simp
        fcntl := by simp
        made := fun _ _ _ => ⟨hsome, hmade⟩
        once := fun h => absurd hroot h }

/-- The two errors are reported under each other's names. -/
theorem Process.reported_iff (w : Process) (c : Call) :
    Reported (w.registerMmap c).1 (w.registerMmap c).2.2 ↔
      w.registry.root ≠ none ∨ ∃ fds, c.answers.pipe2 = .ok fds ∧ c.answers.fcntl = .ok () := by
  rcases w.registerMmap_cases c with ⟨hroot, hcalls, -, -⟩ | ⟨hroot, e, hp, he⟩ |
    ⟨hroot, fds, e, hp, hf, he⟩ | ⟨hroot, fds, hp, hf, hcalls, -, -⟩
  · rw [hcalls]
    refine ⟨fun _ => .inl hroot, fun _ => ⟨?_, ?_⟩⟩
    · exact fun _ h => absurd h List.not_mem_nil
    · exact fun _ _ h => absurd h List.not_mem_nil
  · rw [he, hp]
    constructor
    · intro h
      cases h.pipe2 e List.mem_cons_self
    · rintro (h | ⟨fds, hfds, -⟩)
      · exact absurd hroot h
      · cases hfds
  · rw [he, hf]
    constructor
    · intro h
      cases h.fcntl fds.2 e (by simp)
    · rintro (h | ⟨fds, -, hfds⟩)
      · exact absurd hroot h
      · cases hfds
  · rw [hcalls]
    refine ⟨fun _ => .inr ⟨fds, hp, hf⟩, fun _ => ⟨?_, ?_⟩⟩
    · simp
    · simp

/-- Once made, the lock stays for all calls to come. -/
theorem root_of_run {cs : List Call} (hroot : w.registry.root ≠ none)
    (h : run registrations w cs = some w') : w'.registry.root ≠ none := by
  induction cs generalizing w with
  | nil =>
    obtain rfl : w = w' := by simpa [run] using h
    exact hroot
  | cons c cs ih =>
    obtain ⟨w₁, hw, hr⟩ := Option.bind_eq_some_iff.mp h
    simp only [registrations, Option.ite_none_left_eq_some, Option.some.injEq] at hw
    obtain ⟨-, rfl⟩ := hw
    exact ih ((w.retryable c).once hroot).2.1 hr

/-- Of any sequence of calls: what the next one leaves behind, when it names the system
call that failed, and that a lock which was there before is not made again. -/
theorem register_errors_exact {cs : List Call} (h : run registrations w cs = some w')
    (c : Call) :
    (Reported (w'.registerMmap c).1 (w'.registerMmap c).2.2 ∧
      Retryable w' c (w'.registerMmap c).1 (w'.registerMmap c).2.1 (w'.registerMmap c).2.2 ↔
        w'.registry.root ≠ none ∨
          ∃ fds, c.answers.pipe2 = .ok fds ∧ c.answers.fcntl = .ok ()) ∧
    Retryable w' c (w'.registerMmap c).1 (w'.registerMmap c).2.1 (w'.registerMmap c).2.2 ∧
    (w.registry.root ≠ none → (w'.registerMmap c).2.2 = []) := by
  have hretry := w'.retryable c
  refine ⟨?_, hretry, fun hroot => (hretry.once (root_of_run hroot h)).1⟩
  rw [← w'.reported_iff c]
  exact and_iff_left hretry

end

/-- A process before its first call, with three open descriptors. -/
def fresh : Process := ⟨⟨none, fun _ => State.new, []⟩, [0, 1, 2]⟩

/-- The descriptors are used up. -/
def exhausted : Call := ⟨⟨.error 24, .ok ()⟩, 0x1000, 0x1000, 1, 0⟩

def succeeding : Call := ⟨⟨.ok (3, 4), .ok ()⟩, 0x1000, 0x1000, 1, 0⟩

/-- A failed attempt, the successful one after it, and a call that finds the lock made. -/
theorem register_errors_exact_retried :
    ∃ w, run registrations fresh [exhausted, succeeding] = some w ∧ w.fds = [3, 4, 0, 1, 2] ∧
      Reported (w.registerMmap exhausted).1 (w.registerMmap exhausted).2.2 ∧
      (w.registerMmap exhausted).2.2 = [] := by
  obtain ⟨w, hw, hroot, hfds⟩ : ∃ w, run registrations fresh [exhausted, succeeding] = some w ∧
      w.registry.root ≠ none ∧ w.fds = [3, 4, 0, 1, 2] :=
    ⟨_, rfl, Option.some_ne_none _, rfl⟩
  obtain ⟨hexact, hretry, -⟩ := register_errors_exact hw exhausted
  exact ⟨w, hw, hfds, (hexact.mpr (.inl hroot)).1, (hretry.once hroot).1⟩

/-- A first call during which `pipe2` fails reports that `fcntl` did. -/
theorem register_errors_swapped :
    ¬ ∀ w c, Reach registrations anyStep w →
      Reported (w.registerMmap c).1 (w.registerMmap c).2.2 := by
  intro h
  have hfresh : Reach registrations anyStep fresh := .initial ⟨rfl, rfl⟩
  cases (h fresh exhausted hfresh).pipe2 24 List.mem_cons_self

end SignalCrates.Mmapcatch
