import SignalCrates.SignalLock

/-!
# PipeLock

The code of a frame and the memory it works on are two automata over the same atomic
operations, each with the value it returned: `Pc.step` follows `pipe.rs`, and
`Shared.step` is sequentially consistent memory with a pipe of bounded capacity. A
guard is live from the compare-exchange that takes the lock to the swap that frees it.
-/
namespace SignalCrates.PipeLock
open SignalLock InterruptStack ExclusiveCell

inductive Pc
  | client
  | lock (tid : Tid)
  | fetchAdd (tid : Tid)
  | fence (tid : Tid)
  | exchange (tid : Tid)
  | fetchSub (res : Result)
  | read (tid : Tid)
  | reading (tid : Tid)
  | ret (res : Result)
  | fenceUnlock
  | load
  | write
  | abort

/-- The atomic operations and system calls: a compare-exchange of `holder_tid` from 0
that wins or loses, the updates of `waiters`, and the calls on the pipe. -/
inductive Op
  | win (tid : Tid)
  | lose (found : Tid)
  | fetchAdd
  | fence
  | fetchSub
  | swap (found : Tid)
  | load (found : BitVec 32)
  | enterRead
  | read
  | readEintr
  | write
  | writeEintr

structure PipeLockGuard (T : Type*) where
  tid : Tid
  contended : Bool
  body : Section T

structure Frame (T : Type*) where
  pc : Pc
  guards : List (PipeLockGuard T)

structure Shared (T : Type*) where
  holderTid : Tid
  waiters : BitVec 32
  bytes : ℕ
  cell : Cell T

inductive Action (T : Type*)
  | lock
  | op (o : Op) (update : T → T)
  | ret
  | access (a : Access)
  | drop

variable {T : Type*}

/-- The head of `lock_contended`. -/
def lockContended (tid holderTid : Tid) : Pc :=
  if holderTid = tid then .ret (.error .recursive) else .fetchAdd tid

/-- The loop of `lock_contended`, from a failed compare-exchange to the next operation. -/
def retry (tid holderTid : Tid) : Pc :=
  if holderTid = tid then .fetchSub (.error .recursive)
  else if holderTid = 0 then .exchange tid
  else .read tid

/-- `unlock` after its swap, with debug assertions. -/
def unlock (tid : Tid) (contended : Bool) (holderTid : Tid) : Pc :=
  if tid ≠ holderTid then .abort else if contended then .write else .fenceUnlock

/-- The code between two operations of one call. -/
def Pc.step : Pc → Op → Option Pc
  | .lock tid, .win tid' => if tid' = tid then some (.ret (.ok ())) else none
  | .lock tid, .lose found => some (lockContended tid found)
  | .fetchAdd tid, .fetchAdd => some (.fence tid)
  | .fence tid, .fence => some (.exchange tid)
  | .exchange tid, .win tid' => if tid' = tid then some (.fetchSub (.ok ())) else none
  | .exchange tid, .lose found => some (retry tid found)
  | .fetchSub res, .fetchSub => some (.ret res)
  | .read tid, .enterRead => some (.reading tid)
  | .reading tid, .read => some (.exchange tid)
  | .reading tid, .readEintr => some (.exchange tid)
  | .fenceUnlock, .fence => some .load
  | .load, .load found => some (if 0 < found then .write else .client)
  | .write, .write => some .client
  | .write, .writeEintr => some .write
  | _, _ => none

/-- Sequentially consistent memory and a pipe that holds `capacity` bytes. A weak
compare-exchange may lose against 0, and a write to a full pipe is dropped. -/
def Shared.step (capacity : ℕ) (s : Shared T) : Op → Option (Shared T)
  | .win tid => if s.holderTid = 0 then some { s with holderTid := tid } else none
  | .lose found => if s.holderTid = found then some s else none
  | .fetchAdd => some { s with waiters := s.waiters + 1 }
  | .fence => some s
  | .fetchSub => some { s with waiters := s.waiters - 1 }
  | .swap found => if s.holderTid = found then some { s with holderTid := 0 } else none
  | .load found => if s.waiters = found then some s else none
  | .enterRead => some s
  | .read => if 0 < s.bytes then some { s with bytes := s.bytes - 1 } else none
  | .readEintr => none
  | .write => if s.bytes < capacity then some { s with bytes := s.bytes + 1 } else some s
  | .writeEintr => some s

/-- The guard of a win inside the loop remembers that the lock was contended. -/
def Pc.contended : Pc → Bool
  | .exchange _ => true
  | _ => false

/-- One atomic step of a frame of thread `t`; `t` is what `gettid` returns. -/
def act (capacity : ℕ) (t : Tid) (a : Action T) (s : Shared T) (f : Frame T) :
    Option (Shared T × Frame T) :=
  match a with
  | .lock =>
    match f.pc with
    | .client => some (s, { f with pc := .lock t })
    | _ => none
  | .op o u =>
    (f.pc.step o).bind fun pc => (s.step capacity o).map fun s' =>
      match o with
      | .win tid =>
        ({ s' with cell := s'.cell.acquire u },
          ⟨pc, ⟨tid, f.pc.contended, .enter u⟩ :: f.guards⟩)
      | _ => (s', { f with pc := pc })
  | .ret =>
    match f.pc with
    | .ret _ => some (s, { f with pc := .client })
    | _ => none
  | .access b =>
    match f.pc, f.guards with
    | .client, g :: gs =>
      (g.body.access s.cell b).map fun r =>
        ({ s with cell := r.1 }, { f with guards := { g with body := r.2 } :: gs })
    | _, _ => none
  | .drop =>
    match f.pc, f.guards with
    | .client, g :: gs =>
      (s.step capacity (.swap s.holderTid)).map fun s' =>
        (s', ⟨unlock g.tid g.contended s.holderTid, gs⟩)
    | _, _ => none

def returns (f : Frame T) : Bool :=
  match f.pc, f.guards with
  | .client, [] => true
  | _, _ => false

/-- A handler leaves its guards to the code that it interrupted. -/
def handOut (f f₀ : Frame T) : Option (Frame T × Frame T) :=
  match f.pc with
  | .client => some (⟨.client, []⟩, { f₀ with guards := f.guards ++ f₀.guards })
  | _ => none

/-- The tids that a thread can have. -/
def validTid (t : Tid) : Bool := t ≠ 0

/-- A signal that is delivered inside `read` makes it return `EINTR`. -/
def program (T : Type*) (capacity : ℕ) : Program Tid (Shared T) (Frame T) (Action T) where
  entry := ⟨.client, []⟩
  starts := validTid
  act := act capacity
  deliver _ s f := (s, { f with pc := (f.pc.step .readEintr).getD f.pc })
  returns := returns
  handOut := handOut

abbrev World (T : Type*) := InterruptStack.State Tid (Shared T) (Frame T)

/-- `PipeLock::new(item)`, with bytes that are already in the pipe. -/
def new (x : T) (stale : ℕ) : World T := ⟨⟨0, 0, stale, ⟨x, []⟩⟩, fun _ => []⟩

def system (x : T) (capacity : ℕ) :
    TransitionSystem.System (World T) (Label Tid (Action T)) where
  initial s := ∃ stale, s = new x stale
  next := InterruptStack.next (program T capacity)

/-- The guards live on the frames of thread `t`. -/
abbrev guards (s : World T) : Tid → List (PipeLockGuard T) := live Frame.guards s

/-- Runs in which every guard is dropped by the frame that took it. -/
def noHandOut (_ : World T) : Label Tid (Action T) → Prop
  | .handOut _ => False
  | _ => True

/-- Runs in which every critical section reads and writes the item before its end. -/
def writesBeforeDrop (s : World T) : Label Tid (Action T) → Prop
  | .act t .drop => ∀ f fs g gs, s.stack t = f :: fs → f.guards = g :: gs → g.body.finished
  | _ => True

/-- All that one action can do, by the point at which the frame stands. -/
inductive Acts (capacity : ℕ) (t : Tid) (s : Shared T) :
    Action T → Frame T → Shared T → Frame T → Prop
  | lock {gs} : Acts capacity t s .lock ⟨.client, gs⟩ s ⟨.lock t, gs⟩
  | win {u tid gs} (h : s.holderTid = 0) :
      Acts capacity t s (.op (.win tid) u) ⟨.lock tid, gs⟩
        { s with holderTid := tid, cell := s.cell.acquire u }
        ⟨.ret (.ok ()), ⟨tid, false, .enter u⟩ :: gs⟩
  | winContended {u tid gs} (h : s.holderTid = 0) :
      Acts capacity t s (.op (.win tid) u) ⟨.exchange tid, gs⟩
        { s with holderTid := tid, cell := s.cell.acquire u }
        ⟨.fetchSub (.ok ()), ⟨tid, true, .enter u⟩ :: gs⟩
  | contend {u tid gs} :
      Acts capacity t s (.op (.lose s.holderTid) u) ⟨.lock tid, gs⟩ s
        ⟨lockContended tid s.holderTid, gs⟩
  | lose {u tid gs} :
      Acts capacity t s (.op (.lose s.holderTid) u) ⟨.exchange tid, gs⟩ s
        ⟨retry tid s.holderTid, gs⟩
  | fetchAdd {u tid gs} :
      Acts capacity t s (.op .fetchAdd u) ⟨.fetchAdd tid, gs⟩
        { s with waiters := s.waiters + 1 } ⟨.fence tid, gs⟩
  | fence {u tid gs} : Acts capacity t s (.op .fence u) ⟨.fence tid, gs⟩ s ⟨.exchange tid, gs⟩
  | fetchSub {u res gs} :
      Acts capacity t s (.op .fetchSub u) ⟨.fetchSub res, gs⟩
        { s with waiters := s.waiters - 1 } ⟨.ret res, gs⟩
  | enterRead {u tid gs} :
      Acts capacity t s (.op .enterRead u) ⟨.read tid, gs⟩ s ⟨.reading tid, gs⟩
  | read {u tid gs} (h : 0 < s.bytes) :
      Acts capacity t s (.op .read u) ⟨.reading tid, gs⟩ { s with bytes := s.bytes - 1 }
        ⟨.exchange tid, gs⟩
  | fenceUnlock {u gs} : Acts capacity t s (.op .fence u) ⟨.fenceUnlock, gs⟩ s ⟨.load, gs⟩
  | load {u gs} :
      Acts capacity t s (.op (.load s.waiters) u) ⟨.load, gs⟩ s
        ⟨if 0 < s.waiters then .write else .client, gs⟩
  | write {u gs} (h : s.bytes < capacity) :
      Acts capacity t s (.op .write u) ⟨.write, gs⟩ { s with bytes := s.bytes + 1 } ⟨.client, gs⟩
  | writeFull {u gs} (h : ¬ s.bytes < capacity) :
      Acts capacity t s (.op .write u) ⟨.write, gs⟩ s ⟨.client, gs⟩
  | writeEintr {u gs} : Acts capacity t s (.op .writeEintr u) ⟨.write, gs⟩ s ⟨.write, gs⟩
  | ret {res gs} : Acts capacity t s .ret ⟨.ret res, gs⟩ s ⟨.client, gs⟩
  | access {b g gs c k} (h : g.body.access s.cell b = some (c, k)) :
      Acts capacity t s (.access b) ⟨.client, g :: gs⟩ { s with cell := c }
        ⟨.client, ⟨g.tid, g.contended, k⟩ :: gs⟩
  | drop {g gs} :
      Acts capacity t s .drop ⟨.client, g :: gs⟩ { s with holderTid := 0 }
        ⟨unlock g.tid g.contended s.holderTid, gs⟩

theorem act_cases {capacity : ℕ} {t : Tid} {a : Action T} {s s' : Shared T} {f f' : Frame T}
    (h : act capacity t a s f = some (s', f')) : Acts capacity t s a f s' f' := by
  obtain ⟨pc, gs⟩ := f
  cases a with
  | lock =>
    cases pc <;> simp [act] at h
    obtain ⟨rfl, rfl⟩ := h
    exact .lock
  | op o u =>
    obtain ⟨pc', hpc, h⟩ := Option.bind_eq_some_iff.mp h
    obtain ⟨s₁, hs, he⟩ := Option.map_eq_some_iff.mp h
    cases pc <;> cases o <;> simp only [Pc.step, reduceCtorEq] at hpc <;>
      simp only [Option.ite_none_right_eq_some, Option.some.injEq] at hpc <;>
      simp only [Shared.step, Option.ite_none_right_eq_some, Option.some.injEq, reduceCtorEq]
        at hs <;>
      simp only [Prod.mk.injEq] at he
    case lock.win =>
      obtain ⟨rfl, rfl⟩ := hpc
      obtain ⟨h0, rfl⟩ := hs
      obtain ⟨rfl, rfl⟩ := he
      exact .win h0
    case exchange.win =>
      obtain ⟨rfl, rfl⟩ := hpc
      obtain ⟨h0, rfl⟩ := hs
      obtain ⟨rfl, rfl⟩ := he
      exact .winContended h0
    case write.write =>
      subst hpc
      obtain ⟨rfl, rfl⟩ := he
      split_ifs at hs with hb <;> obtain rfl := Option.some.inj hs
      · exact .write hb
      · exact .writeFull hb
    all_goals
      subst hpc
      obtain ⟨rfl, rfl⟩ := he
    case lock.lose =>
      obtain ⟨rfl, rfl⟩ := hs
      exact .contend
    case exchange.lose =>
      obtain ⟨rfl, rfl⟩ := hs
      exact .lose
    case load.load =>
      obtain ⟨rfl, rfl⟩ := hs
      exact .load
    case reading.read =>
      obtain ⟨hb, rfl⟩ := hs
      exact .read hb
    all_goals subst hs
    case fetchAdd.fetchAdd => exact .fetchAdd
    case fence.fence => exact .fence
    case fetchSub.fetchSub => exact .fetchSub
    case read.enterRead => exact .enterRead
    case fenceUnlock.fence => exact .fenceUnlock
    case write.writeEintr => exact .writeEintr
  | ret =>
    cases pc <;> simp [act] at h
    obtain ⟨rfl, rfl⟩ := h
    exact .ret
  | access b =>
    cases pc <;> cases gs <;> simp [act] at h
    obtain ⟨c, k, hk, rfl, rfl⟩ := h
    exact .access hk
  | drop =>
    cases pc <;> cases gs <;> simp [act, Shared.step] at h
    obtain ⟨rfl, rfl⟩ := h
    exact .drop

theorem returns_cases {capacity : ℕ} {f : Frame T} (h : (program T capacity).returns f = true) :
    f = ⟨.client, []⟩ := by
  obtain ⟨pc, gs⟩ := f
  cases pc <;> cases gs <;> simp [program, returns] at h
  rfl

theorem handOut_cases {capacity : ℕ} {f f₀ f' f₀' : Frame T}
    (h : (program T capacity).handOut f f₀ = some (f', f₀')) :
    ∃ gs, f = ⟨.client, gs⟩ ∧ f' = ⟨.client, []⟩ ∧ f₀' = ⟨f₀.pc, gs ++ f₀.guards⟩ := by
  obtain ⟨pc, gs⟩ := f
  cases pc <;> simp [program, handOut] at h
  obtain ⟨rfl, rfl⟩ := h
  exact ⟨gs, rfl, rfl, rfl⟩

theorem conserves (capacity : ℕ) : Conserves (program T capacity) Frame.guards where
  entry := rfl
  deliver _ _ _ := rfl
  returns f h := by rw [returns_cases h]
  handOut f f₀ f' f₀' h := by
    obtain ⟨gs, rfl, rfl, rfl⟩ := handOut_cases h
    rfl

/-- A signal only turns a blocked `read` into a retry. -/
theorem interrupted_cases (pc : Pc) :
    (∃ tid, pc = .reading tid ∧ (pc.step .readEintr).getD pc = .exchange tid) ∨
      (pc.step .readEintr).getD pc = pc := by
  cases pc
  case reading tid => exact .inl ⟨tid, rfl, rfl⟩
  all_goals exact .inr rfl

end SignalCrates.PipeLock
