import SignalCrates.FutexWord

/-!
# FutexLock

Each constructor of `Pc` is a point just before one atomic operation or system call
of `futex.rs`; what the code computes between two of them is a function to the next
point. A guard is live from the compare-exchange that takes the lock to the swap that
frees it. The kernel's queue holds the threads whose innermost frame sleeps.
-/
namespace SignalCrates.FutexLock
open SignalLock InterruptStack ExclusiveCell FutexWord

inductive Pc
  | client
  | rawLock (tid : Tid)
  | acquire (tid : Tid)
  | setWaiters (tid : Tid) (word : Word)
  | wait (tid : Tid) (word : Word)
  | waiting (tid : Tid)
  | reload (tid : Tid)
  | ret (res : Result)
  | wake
  | abort

structure FutexLockGuard (T : Type*) where
  tid : Tid
  body : Section T

structure Frame (T : Type*) where
  pc : Pc
  guards : List (FutexLockGuard T)

structure Shared (T : Type*) where
  word : Word
  queue : Finset Tid
  cell : Cell T

/-- The client's calls, and the outcomes that scheduling and the kernel choose. -/
inductive Action (T : Type*)
  | lock
  | exchange (spurious : Bool) (update : T → T)
  | wait
  | woken
  | spuriousWake
  | load
  | ret
  | access (a : Access)
  | drop
  | wakeOne (sleeper : Option Tid)

variable {T : Type*}

/-- A weak compare-exchange returns the word it found, also when it fails spuriously. -/
def compareExchangeWeak (found expected : Word) (spurious : Bool) : Except Word Word :=
  if found = expected ∧ spurious = false then .ok found else .error found

/-- The head of the loop in `raw_lock_contended`, up to the next atomic operation. -/
def rawLockContended (tid : Tid) (word : Word) : Pc :=
  if word &&& FUTEX_TID_MASK = tid then .ret (.error .recursive)
  else if word = 0 then .acquire tid
  else if word &&& FUTEX_WAITERS = 0 then .setWaiters tid word
  else .wait tid word

/-- What `raw_unlock` does with the word that the swap returned, with debug assertions. -/
def rawUnlock (tid : Tid) (prev : Word) : Pc :=
  if prev &&& FUTEX_TID_MASK ≠ tid then .abort
  else if prev ≠ tid then
    if prev = tid ||| FUTEX_WAITERS then .wake else .abort
  else .client

def Shared.take (s : Shared T) (word : Word) (u : T → T) : Shared T :=
  { s with word := word, cell := s.cell.acquire u }

/-- The call returns `Ok` and its guard is live. -/
def Frame.take (f : Frame T) (tid : Tid) (u : T → T) : Frame T :=
  ⟨.ret (.ok ()), ⟨tid, .enter u⟩ :: f.guards⟩

/-- One atomic step of a frame of thread `t`; `t` is what `gettid` returns. -/
def act (t : Tid) (a : Action T) (s : Shared T) (f : Frame T) : Option (Shared T × Frame T) :=
  match a, f.pc with
  | .lock, .client => some (s, { f with pc := .rawLock t })
  | .exchange spurious u, .rawLock tid =>
    match compareExchangeWeak s.word 0 spurious with
    | .ok _ => some (s.take tid u, f.take tid u)
    | .error word => some (s, { f with pc := rawLockContended tid word })
  | .exchange spurious u, .acquire tid =>
    match compareExchangeWeak s.word 0 spurious with
    | .ok _ => some (s.take (tid ||| FUTEX_WAITERS) u, f.take tid u)
    | .error word => some (s, { f with pc := rawLockContended tid word })
  | .exchange spurious _, .setWaiters tid word =>
    match compareExchangeWeak s.word word spurious with
    | .ok _ =>
      some ({ s with word := word ||| FUTEX_WAITERS },
        { f with pc := .wait tid (word ||| FUTEX_WAITERS) })
    | .error word' => some (s, { f with pc := rawLockContended tid word' })
  | .wait, .wait tid val =>
    if s.word = val then some ({ s with queue := insert t s.queue }, { f with pc := .waiting tid })
    else some (s, { f with pc := .reload tid })
  | .woken, .waiting tid =>
    if t ∈ s.queue then none else some (s, { f with pc := .reload tid })
  | .spuriousWake, .waiting tid =>
    some ({ s with queue := s.queue.erase t }, { f with pc := .reload tid })
  | .load, .reload tid => some (s, { f with pc := rawLockContended tid s.word })
  | .ret, .ret _ => some (s, { f with pc := .client })
  | .access a, .client =>
    match f.guards with
    | [] => none
    | g :: gs =>
      (g.body.access s.cell a).map fun r =>
        ({ s with cell := r.1 }, { f with guards := { g with body := r.2 } :: gs })
  | .drop, .client =>
    match f.guards with
    | [] => none
    | g :: gs => some ({ s with word := 0 }, ⟨rawUnlock g.tid s.word, gs⟩)
  | .wakeOne none, .wake =>
    if s.queue = ∅ then some (s, { f with pc := .client }) else none
  | .wakeOne (some u), .wake =>
    if u ∈ s.queue then some ({ s with queue := s.queue.erase u }, { f with pc := .client })
    else none
  | _, _ => none

/-- A handler may end, and a thread exit, outside the lock's code and without a guard. -/
def returns (f : Frame T) : Bool :=
  match f.pc, f.guards with
  | .client, [] => true
  | _, _ => false

/-- A handler leaves its guards to the code that it interrupted. -/
def handOut (f f₀ : Frame T) : Option (Frame T × Frame T) :=
  match f.pc with
  | .client => some (⟨.client, []⟩, { f₀ with guards := f.guards ++ f₀.guards })
  | _ => none

/-- A signal dequeues a sleeping thread, whose wait then returns `EINTR`. -/
def program (T : Type*) : Program Tid (Shared T) (Frame T) (Action T) where
  entry := ⟨.client, []⟩
  starts := validTid
  act := act
  deliver t s f := ({ s with queue := s.queue.erase t }, f)
  returns := returns
  handOut := handOut

abbrev World (T : Type*) := InterruptStack.State Tid (Shared T) (Frame T)

/-- `FutexLock::new(item)`, before any thread runs. -/
def new (x : T) : World T := ⟨⟨0, ∅, ⟨x, []⟩⟩, fun _ => []⟩

def system (x : T) : TransitionSystem.System (World T) (Label Tid (Action T)) where
  initial s := s = new x
  next := InterruptStack.next (program T)

/-- The guards live on the frames of thread `t`. -/
abbrev guards (s : World T) : Tid → List (FutexLockGuard T) := live Frame.guards s

/-- Runs in which every guard is dropped by the frame that took it. -/
def noHandOut (_ : World T) : Label Tid (Action T) → Prop
  | .handOut _ => False
  | _ => True

/-- Runs in which every critical section reads and writes the item before its end. -/
def writesBeforeDrop (s : World T) : Label Tid (Action T) → Prop
  | .act t .drop => ∀ f fs g gs, s.stack t = f :: fs → f.guards = g :: gs → g.body.finished
  | _ => True

theorem compareExchangeWeak_cases (found expected : Word) (spurious : Bool) :
    (found = expected ∧ compareExchangeWeak found expected spurious = .ok found) ∨
      compareExchangeWeak found expected spurious = .error found := by
  unfold compareExchangeWeak
  split_ifs with h
  · exact .inl ⟨h.1, rfl⟩
  · exact .inr rfl

/-- All that one action can do, by the point at which the frame stands. -/
inductive Acts (t : Tid) (s : Shared T) :
    Action T → Frame T → Shared T → Frame T → Prop
  | lock {gs} : Acts t s .lock ⟨.client, gs⟩ s ⟨.rawLock t, gs⟩
  | take {b u tid gs} (h : s.word = 0) :
      Acts t s (.exchange b u) ⟨.rawLock tid, gs⟩ (s.take tid u)
        ⟨.ret (.ok ()), ⟨tid, .enter u⟩ :: gs⟩
  | contend {b u tid gs} :
      Acts t s (.exchange b u) ⟨.rawLock tid, gs⟩ s ⟨rawLockContended tid s.word, gs⟩
  | takeContended {b u tid gs} (h : s.word = 0) :
      Acts t s (.exchange b u) ⟨.acquire tid, gs⟩ (s.take (tid ||| FUTEX_WAITERS) u)
        ⟨.ret (.ok ()), ⟨tid, .enter u⟩ :: gs⟩
  | loseAcquire {b u tid gs} :
      Acts t s (.exchange b u) ⟨.acquire tid, gs⟩ s ⟨rawLockContended tid s.word, gs⟩
  | setWaiters {b u tid word gs} (h : s.word = word) :
      Acts t s (.exchange b u) ⟨.setWaiters tid word, gs⟩
        { s with word := word ||| FUTEX_WAITERS } ⟨.wait tid (word ||| FUTEX_WAITERS), gs⟩
  | loseWaiters {b u tid word gs} :
      Acts t s (.exchange b u) ⟨.setWaiters tid word, gs⟩ s ⟨rawLockContended tid s.word, gs⟩
  | sleep {tid val gs} (h : s.word = val) :
      Acts t s .wait ⟨.wait tid val, gs⟩ { s with queue := insert t s.queue } ⟨.waiting tid, gs⟩
  | eagain {tid val gs} (h : s.word ≠ val) :
      Acts t s .wait ⟨.wait tid val, gs⟩ s ⟨.reload tid, gs⟩
  | woken {tid gs} (h : t ∉ s.queue) : Acts t s .woken ⟨.waiting tid, gs⟩ s ⟨.reload tid, gs⟩
  | spuriousWake {tid gs} :
      Acts t s .spuriousWake ⟨.waiting tid, gs⟩ { s with queue := s.queue.erase t }
        ⟨.reload tid, gs⟩
  | load {tid gs} : Acts t s .load ⟨.reload tid, gs⟩ s ⟨rawLockContended tid s.word, gs⟩
  | ret {res gs} : Acts t s .ret ⟨.ret res, gs⟩ s ⟨.client, gs⟩
  | access {a g gs c k} (h : g.body.access s.cell a = some (c, k)) :
      Acts t s (.access a) ⟨.client, g :: gs⟩ { s with cell := c } ⟨.client, ⟨g.tid, k⟩ :: gs⟩
  | drop {g gs} :
      Acts t s .drop ⟨.client, g :: gs⟩ { s with word := 0 } ⟨rawUnlock g.tid s.word, gs⟩
  | wakeNone {gs} (h : s.queue = ∅) : Acts t s (.wakeOne none) ⟨.wake, gs⟩ s ⟨.client, gs⟩
  | wakeSome {u gs} (h : u ∈ s.queue) :
      Acts t s (.wakeOne (some u)) ⟨.wake, gs⟩ { s with queue := s.queue.erase u } ⟨.client, gs⟩

theorem act_cases {t : Tid} {a : Action T} {s s' : Shared T} {f f' : Frame T}
    (h : act t a s f = some (s', f')) : Acts t s a f s' f' := by
  obtain ⟨pc, gs⟩ := f
  cases a with
  | lock =>
    cases pc <;> simp [act] at h
    obtain ⟨rfl, rfl⟩ := h
    exact .lock
  | exchange b u =>
    cases pc <;> simp only [act, reduceCtorEq] at h
    case rawLock tid =>
      rcases compareExchangeWeak_cases s.word 0 b with ⟨hw, he⟩ | he <;>
        simp only [he, Option.some.injEq, Prod.mk.injEq] at h <;> obtain ⟨rfl, rfl⟩ := h
      · exact .take hw
      · exact .contend
    case acquire tid =>
      rcases compareExchangeWeak_cases s.word 0 b with ⟨hw, he⟩ | he <;>
        simp only [he, Option.some.injEq, Prod.mk.injEq] at h <;> obtain ⟨rfl, rfl⟩ := h
      · exact .takeContended hw
      · exact .loseAcquire
    case setWaiters tid word =>
      rcases compareExchangeWeak_cases s.word word b with ⟨hw, he⟩ | he <;>
        simp only [he, Option.some.injEq, Prod.mk.injEq] at h <;> obtain ⟨rfl, rfl⟩ := h
      · exact .setWaiters hw
      · exact .loseWaiters
  | wait =>
    cases pc <;> simp only [act, reduceCtorEq] at h
    case wait tid val =>
      split_ifs at h with hw <;> simp only [Option.some.injEq, Prod.mk.injEq] at h <;>
        obtain ⟨rfl, rfl⟩ := h
      · exact .sleep hw
      · exact .eagain hw
  | woken =>
    cases pc <;> simp [act] at h
    obtain ⟨hq, rfl, rfl⟩ := h
    exact .woken hq
  | spuriousWake =>
    cases pc <;> simp [act] at h
    obtain ⟨rfl, rfl⟩ := h
    exact .spuriousWake
  | load =>
    cases pc <;> simp [act] at h
    obtain ⟨rfl, rfl⟩ := h
    exact .load
  | ret =>
    cases pc <;> simp [act] at h
    obtain ⟨rfl, rfl⟩ := h
    exact .ret
  | access a =>
    cases pc <;> simp only [act, reduceCtorEq] at h
    cases gs with
    | nil => simp at h
    | cons g gs =>
      obtain ⟨⟨c, k⟩, hk, he⟩ := Option.map_eq_some_iff.mp h
      simp only [Prod.mk.injEq] at he
      obtain ⟨rfl, rfl⟩ := he
      exact .access hk
  | drop =>
    cases pc <;> simp only [act, reduceCtorEq] at h
    cases gs with
    | nil => simp at h
    | cons g gs =>
      simp only [Option.some.injEq, Prod.mk.injEq] at h
      obtain ⟨rfl, rfl⟩ := h
      exact .drop
  | wakeOne u =>
    cases u <;> cases pc <;> simp [act] at h
    · obtain ⟨hq, rfl, rfl⟩ := h
      exact .wakeNone hq
    · obtain ⟨hq, rfl, rfl⟩ := h
      exact .wakeSome hq

theorem returns_cases {f : Frame T} (h : (program T).returns f = true) :
    f = ⟨.client, []⟩ := by
  obtain ⟨pc, gs⟩ := f
  cases pc <;> cases gs <;> simp [program, returns] at h
  rfl

theorem handOut_cases {f f₀ f' f₀' : Frame T}
    (h : (program T).handOut f f₀ = some (f', f₀')) :
    ∃ gs, f = ⟨.client, gs⟩ ∧ f' = ⟨.client, []⟩ ∧ f₀' = ⟨f₀.pc, gs ++ f₀.guards⟩ := by
  obtain ⟨pc, gs⟩ := f
  cases pc <;> simp [program, handOut] at h
  obtain ⟨rfl, rfl⟩ := h
  exact ⟨gs, rfl, rfl, rfl⟩

theorem conserves : Conserves (program T) Frame.guards where
  entry := rfl
  deliver _ _ _ := rfl
  returns f h := by rw [returns_cases h]
  handOut f f₀ f' f₀' h := by
    obtain ⟨gs, rfl, rfl, rfl⟩ := handOut_cases h
    rfl

end SignalCrates.FutexLock
