import SignalCrates.TransitionSystem

/-!
# The algorithm Mutex of the TLA+ files

`futex.tla` and `pipe.tla` have the same processes: a main loop and a signal handler that
both call `lock_unlock`, whose labels, variables and steps are the parameters here.
A process is described by its calls of `lock_unlock`, innermost first, each with the label
at which it goes on.
-/
namespace SignalCrates.MutexAlgorithm
open TransitionSystem

inductive Pc (L : Type*)
  | start
  | pDone
  | done
  | s0
  | s1
  | lockUnlock (l : L)

/-- A record on the stack of a process: where the procedure returns to and, for
`lock_unlock`, the local variables of the caller. -/
inductive Record (L V : Type*)
  | lockUnlock (pc : Pc L) (locals : V)
  | handleSignal (pc : Pc L)

structure Process (L V : Type*) where
  pc : Pc L
  stack : List (Record L V)
  locals : V
  iterations : ℤ
  signalDepth : ℤ

/-- How a step of `lock_unlock` goes on: at another label, at another label after
`maybe_signal`, with `return` for `Err(Recursive)`, or with the statements of `u_end`. -/
inductive Exit (L : Type*)
  | goto (l : L)
  | maybeSignal (l : L)
  | recursive
  | uEnd

/-- The step of `lock_unlock` takes the process, an element that a `with` chooses, and the
label, and changes the global variables and the local ones. -/
structure Algorithm (Proc L G V : Type*) where
  maxSignalDepth : ℤ
  maxIterations : ℤ
  globals : G
  locals : V
  entry : L
  lockUnlock : Proc → Option Proc → L → G → V → Option (G × V × Exit L)

structure State (Proc L G V : Type*) where
  globals : G
  process : Proc → Process L V

/-- The process that steps, whether `maybe_signal` calls the handler, and what a `with`
chooses. -/
structure Choice (Proc : Type*) where
  self : Proc
  signal : Bool
  chosen : Option Proc

variable {Proc L G V : Type*}

/-- `return` from `lock_unlock`. -/
def Process.ret (p : Process L V) : Option (Process L V) :=
  match p.stack with
  | .lockUnlock pc v :: rest => some { p with pc := pc, stack := rest, locals := v }
  | _ => none

namespace Algorithm

variable (A : Algorithm Proc L G V)

/-- `call lock_unlock()`, which comes back to `pc`. -/
def call (p : Process L V) (pc : Pc L) : Process L V :=
  { p with
    pc := .lockUnlock A.entry
    stack := .lockUnlock pc p.locals :: p.stack
    locals := A.locals }

def exit (p : Process L V) (signal : Bool) : Exit L → Option (Process L V)
  | .goto l => some { p with pc := .lockUnlock l }
  | .maybeSignal l =>
    if signal then
      if 0 < p.iterations ∧ p.signalDepth < A.maxSignalDepth then
        some { p with pc := .s0, stack := .handleSignal (.lockUnlock l) :: p.stack }
      else none
    else some { p with pc := .lockUnlock l }
  | .recursive => p.ret
  | .uEnd =>
    { p with iterations := if 0 < p.iterations then p.iterations - 1 else p.iterations }.ret

/-- One step of a process. -/
def step (c : Choice Proc) (g : G) (p : Process L V) : Option (G × Process L V) :=
  match p.pc with
  | .start =>
    if 0 < p.iterations then some (g, A.call p .start) else some (g, { p with pc := .pDone })
  | .pDone => some (g, { p with pc := .done })
  | .done => none
  | .s0 => some (g, A.call { p with signalDepth := p.signalDepth + 1 } .s1)
  | .s1 =>
    match p.stack with
    | .handleSignal pc :: rest =>
      some (g, { p with pc := pc, stack := rest, signalDepth := p.signalDepth - 1 })
    | _ => none
  | .lockUnlock l =>
    (A.lockUnlock c.self c.chosen l g p.locals).bind fun r =>
      (A.exit { p with locals := r.2.1 } c.signal r.2.2).map fun p' => (r.1, p')

def init : State Proc L G V :=
  ⟨A.globals, fun _ => ⟨.start, [], A.locals, A.maxIterations, 0⟩⟩

variable [DecidableEq Proc]

/-- `Init` and the steps of `Next`. The stuttering of `Terminating` is left to behaviors. -/
def system : System (State Proc L G V) (Choice Proc) where
  initial s := s = A.init
  next s c := (A.step c s.globals (s.process c.self)).map fun r =>
    ⟨r.1, Function.update s.process c.self r.2⟩

end Algorithm

/-- The calls of `lock_unlock` that signals have interrupted, on a stack below the local
variables of the innermost. -/
def interrupted : List (Record L V) → V → List (L × V)
  | [], _ => []
  | .lockUnlock _ v :: rest, _ => interrupted rest v
  | .handleSignal (.lockUnlock l) :: rest, v => (l, v) :: interrupted rest v
  | .handleSignal _ :: rest, v => interrupted rest v

/-- The calls of `lock_unlock` in progress, innermost first. -/
def Process.calls (p : Process L V) : List (L × V) :=
  match p.pc with
  | .lockUnlock l => (l, p.locals) :: interrupted p.stack p.locals
  | _ => interrupted p.stack p.locals

namespace Algorithm

variable (A : Algorithm Proc L G V)

/-- A call of `lock_unlock` that `maybe_signal` interrupts goes on at this label. -/
def Resumes (l : L) : Prop :=
  ∃ self chosen l₀ g v g' v', A.lockUnlock self chosen l₀ g v = some (g', v', .maybeSignal l)

/-- The stack inside `lock_unlock`, below so many handlers. -/
inductive Nested : ℤ → List (Record L V) → Prop
  | main {v : V} : Nested 0 [.lockUnlock .start v]
  | handler {d : ℤ} {l : L} {v : V} {rest : List (Record L V)} (hl : A.Resumes l)
      (hd : d < A.maxSignalDepth) (h : Nested d rest) :
      Nested (d + 1) (.lockUnlock .s1 v :: .handleSignal (.lockUnlock l) :: rest)

inductive WellFormed : Process L V → Prop
  | outside {pc : Pc L} {v : V} {i : ℤ} (h : pc = .start ∨ pc = .pDone ∨ pc = .done) :
      WellFormed ⟨pc, [], v, i, 0⟩
  | inside {l : L} {stack : List (Record L V)} {v : V} {i d : ℤ} (h : A.Nested d stack) :
      WellFormed ⟨.lockUnlock l, stack, v, i, d⟩
  | signaled {l : L} {stack : List (Record L V)} {v : V} {i d : ℤ} (hl : A.Resumes l)
      (h : A.Nested d stack) (hi : 0 < i) (hd : d < A.maxSignalDepth) :
      WellFormed ⟨.s0, .handleSignal (.lockUnlock l) :: stack, v, i, d⟩
  | handled {l : L} {stack : List (Record L V)} {v : V} {i d : ℤ} (hl : A.Resumes l)
      (h : A.Nested d stack) (hd : d < A.maxSignalDepth) :
      WellFormed ⟨.s1, .handleSignal (.lockUnlock l) :: stack, v, i, d + 1⟩

/-- The calls that a process can have at a time. -/
def maxCalls : ℕ := A.maxSignalDepth.toNat + 1

/-- A bound on the calls that the process has still to make. -/
def budget (p : Process L V) : ℕ :=
  if 0 < p.iterations then p.iterations.toNat + (A.maxCalls - p.calls.length) else 0

variable {A}

theorem Nested.length {d : ℤ} {stack : List (Record L V)} (h : A.Nested d stack) (v : V) :
    ((interrupted stack v).length : ℤ) = d ∧ d ≤ A.maxSignalDepth.toNat := by
  induction h generalizing v with
  | main => simp [interrupted]
  | @handler d l v' rest hl hd h ih =>
    obtain ⟨hlength, hle⟩ := ih v'
    simp only [interrupted, List.length_cons]
    omega

theorem Nested.resumes {d : ℤ} {stack : List (Record L V)} (h : A.Nested d stack) (v : V) :
    ∀ x ∈ interrupted stack v, A.Resumes x.1 := by
  induction h generalizing v with
  | main => simp [interrupted]
  | @handler d l v' rest hl hd h ih =>
    simp only [interrupted, List.mem_cons]
    rintro x (rfl | hx)
    · exact hl
    · exact ih v' x hx

theorem WellFormed.length_calls {p : Process L V} (h : A.WellFormed p) :
    p.calls.length ≤ A.maxCalls := by
  unfold maxCalls
  cases h with
  | outside h => rcases h with rfl | rfl | rfl <;> simp [Process.calls, interrupted]
  | @inside l stack v i d h =>
    have := h.length v
    simp only [Process.calls, List.length_cons]
    omega
  | @signaled l stack v i d hl h hi hd =>
    have := h.length v
    simp only [Process.calls, interrupted, List.length_cons]
    omega
  | @handled l stack v i d hl h hd =>
    have := h.length v
    simp only [Process.calls, interrupted, List.length_cons]
    omega

theorem wellFormed_init (A : Algorithm Proc L G V) (p : Proc) :
    A.WellFormed (A.init.process p) := .outside (.inl rfl)

end Algorithm

/-- A process stays within `rank` steps of a step that changes its calls, the variables of
the algorithm or the code's state. -/
def Process.rank (r : L → ℕ) (p : Process L V) : ℕ :=
  match p.pc with
  | .start => 2
  | .pDone => 1
  | .s1 =>
    match p.stack with
    | .handleSignal (.lockUnlock l) :: _ => r l + 2
    | _ => 0
  | .lockUnlock l => r l + 1
  | _ => 0

/-- What a step of a process does to its calls, its budget and its rank. -/
inductive Effect (A : Algorithm Proc L G V) (r : L → ℕ) (c : Choice Proc) (g : G)
    (p : Process L V) (g' : G) (p' : Process L V) : Prop
  | call (hg : g' = g) (hp : p'.calls = (A.entry, A.locals) :: p.calls)
      (hr : ∀ x ∈ p.calls, A.Resumes x.1) (hb : A.budget p' < A.budget p)
  | silent (hg : g' = g) (hp : p'.calls = p.calls) (hb : A.budget p' = A.budget p)
      (hrank : p'.rank r < p.rank r)
  | goto {l l' : L} {v v' : V} {rest : List (L × V)} {e : Exit L}
      (he : e = .goto l' ∨ e = .maybeSignal l') (hp : p.calls = (l, v) :: rest)
      (hr : ∀ x ∈ rest, A.Resumes x.1)
      (hl : A.lockUnlock c.self c.chosen l g v = some (g', v', e))
      (hp' : p'.calls = (l', v') :: rest) (hb : A.budget p' = A.budget p)
      (hrank : r l' < r l → p'.rank r < p.rank r)
  | recursive {l : L} {v v' : V} {rest : List (L × V)} (hp : p.calls = (l, v) :: rest)
      (hr : ∀ x ∈ rest, A.Resumes x.1)
      (hl : A.lockUnlock c.self c.chosen l g v = some (g', v', .recursive))
  | uEnd {l : L} {v v' : V} {rest : List (L × V)} (hp : p.calls = (l, v) :: rest)
      (hr : ∀ x ∈ rest, A.Resumes x.1)
      (hl : A.lockUnlock c.self c.chosen l g v = some (g', v', .uEnd))
      (hp' : p'.calls = rest) (hb : A.budget p' ≤ A.budget p)

namespace Algorithm

variable {A : Algorithm Proc L G V}

/-- Inside `lock_unlock` the process has a caller to return to. -/
theorem Nested.ret {l : L} {d i : ℤ} {stack : List (Record L V)} {v : V} (h : A.Nested d stack) :
    ∃ p' : Process L V, Process.ret ⟨.lockUnlock l, stack, v, i, d⟩ = some p' ∧
      A.WellFormed p' ∧ p'.calls = interrupted stack v ∧ p'.iterations = i := by
  cases h with
  | @main v₀ => exact ⟨_, rfl, .outside (.inl rfl), rfl, rfl⟩
  | @handler d l' v₀ rest hl hd h => exact ⟨_, rfl, .handled hl h hd, rfl, rfl⟩

theorem WellFormed.exit {r : L → ℕ} {c : Choice Proc} {g g' : G} {l : L}
    {stack : List (Record L V)} {v v' : V} {i d : ℤ} {e : Exit L} {p' : Process L V}
    (h : A.Nested d stack) (hl : A.lockUnlock c.self c.chosen l g v = some (g', v', e))
    (he : A.exit ⟨.lockUnlock l, stack, v', i, d⟩ c.signal e = some p') :
    A.WellFormed p' ∧ Effect A r c g ⟨.lockUnlock l, stack, v, i, d⟩ g' p' := by
  have hcalls : Process.calls ⟨.lockUnlock l, stack, v, i, d⟩ = (l, v) :: interrupted stack v :=
    rfl
  have hrest : interrupted stack v = interrupted stack v' := by cases h <;> rfl
  have hres : ∀ x ∈ interrupted stack v, A.Resumes x.1 := h.resumes v
  have hlen := h.length v
  cases e with
  | goto l' =>
    obtain rfl := Option.some.inj he
    refine ⟨.inside h, .goto (.inl rfl) hcalls hres hl ?_ ?_ fun hr => by simpa [Process.rank]⟩
    · rw [hrest]
      rfl
    · simp [budget, Process.calls, hrest]
  | maybeSignal l' =>
    have hl' : A.Resumes l' := ⟨_, _, _, _, _, _, _, hl⟩
    simp only [Algorithm.exit] at he
    split_ifs at he with hs hi
    · obtain rfl := Option.some.inj he
      refine ⟨.signaled hl' h hi.1 hi.2, .goto (.inr rfl) hcalls hres hl ?_ ?_
        fun hr => by simp [Process.rank]⟩
      · rw [hrest]
        rfl
      · simp [budget, Process.calls, interrupted, hrest]
    · obtain rfl := Option.some.inj he
      refine ⟨.inside h, .goto (.inr rfl) hcalls hres hl ?_ ?_ fun hr => by simpa [Process.rank]⟩
      · rw [hrest]
        rfl
      · simp [budget, Process.calls, hrest]
  | recursive =>
    obtain ⟨q, hq, hw, -, -⟩ := Nested.ret (l := l) (i := i) (v := v') h
    obtain rfl : q = p' := Option.some.inj (hq.symm.trans he)
    exact ⟨hw, .recursive hcalls hres hl⟩
  | uEnd =>
    obtain ⟨q, hq, hw, hqcalls, hqi⟩ := Nested.ret (l := l)
      (i := if 0 < i then i - 1 else i) (v := v') h
    obtain rfl : q = p' := Option.some.inj (hq.symm.trans he)
    refine ⟨hw, .uEnd hcalls hres hl (hqcalls.trans hrest.symm) ?_⟩
    -- the call that ends makes room for another one, and takes one iteration away
    have hmax : (interrupted stack v).length + 1 ≤ A.maxCalls := by
      unfold maxCalls
      omega
    rw [budget, budget, hqi, hqcalls, ← hrest, hcalls, List.length_cons]
    dsimp only
    split_ifs <;> omega

theorem WellFormed.step {r : L → ℕ} {c : Choice Proc} {g g' : G} {p p' : Process L V}
    (h : A.WellFormed p) (hs : A.step c g p = some (g', p')) :
    A.WellFormed p' ∧ Effect A r c g p g' p' := by
  cases h with
  | @outside pc v i hpc =>
    rcases hpc with rfl | rfl | rfl
    · simp only [Algorithm.step] at hs
      split_ifs at hs with hi <;> obtain ⟨rfl, rfl⟩ := Prod.mk.inj (Option.some.inj hs)
      · refine ⟨.inside .main, .call rfl rfl (by simp [Process.calls, interrupted]) ?_⟩
        simp only [budget, call, Process.calls, interrupted, hi, if_true, List.length_cons,
          List.length_nil, maxCalls]
        omega
      · exact ⟨.outside (.inr (.inl rfl)), .silent rfl rfl rfl (by simp [Process.rank])⟩
    · obtain ⟨rfl, rfl⟩ := Prod.mk.inj (Option.some.inj hs)
      exact ⟨.outside (.inr (.inr rfl)), .silent rfl rfl rfl (by simp [Process.rank])⟩
    · simp [Algorithm.step] at hs
  | @inside l stack v i d h =>
    obtain ⟨⟨g₁, v', e⟩, hl, hs⟩ := Option.bind_eq_some_iff.mp hs
    obtain ⟨q, hq, he⟩ := Option.map_eq_some_iff.mp hs
    obtain ⟨rfl, rfl⟩ := Prod.mk.inj he
    exact WellFormed.exit h hl hq
  | @signaled l stack v i d hl h hi hd =>
    obtain ⟨rfl, rfl⟩ := Prod.mk.inj (Option.some.inj hs)
    refine ⟨.inside (.handler hl hd h), .call rfl rfl ?_ ?_⟩
    · exact (Nested.handler (v := v) hl hd h).resumes v
    · have := h.length v
      simp only [budget, call, Process.calls, interrupted, hi, if_true, List.length_cons,
        maxCalls]
      omega
  | @handled l stack v i d hl h hd =>
    obtain ⟨rfl, rfl⟩ := Prod.mk.inj (Option.some.inj hs)
    have he : d + 1 - 1 = d := by omega
    rw [he]
    exact ⟨.inside h, .silent rfl rfl rfl (by simp [Process.rank])⟩

end Algorithm

end SignalCrates.MutexAlgorithm
