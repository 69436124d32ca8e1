import SignalCrates.PipeExclusion
import SignalCrates.Potential

/-!
# A PipeLock has no livelock

A contended call pays for its first iteration of the loop in `lock_contended`. A frame
comes back to its exchange only after it read a byte, which was in the pipe at the start
or was written since, or after a signal interrupted its `read`.
-/
namespace SignalCrates.PipeLock
open SignalLock TransitionSystem InterruptStack ExclusiveCell Potential

variable {T : Type*}

/-- A `compare_exchange_weak` from 0 fails only if it finds something else. -/
def genuine : Label Tid (Action T) → Bool
  | .act _ (.op (.lose found) _) => found ≠ 0
  | _ => true

def Action.isLock : Action T → Bool
  | .lock => true
  | _ => false

def Action.isWriteEintr : Action T → Bool
  | .op .writeEintr _ => true
  | _ => false

def locks (ls : List (Label Tid (Action T))) : ℕ := ls.countP (Label.isAct Action.isLock)

def writeEintrs (ls : List (Label Tid (Action T))) : ℕ :=
  ls.countP (Label.isAct Action.isWriteEintr)

/-- Exchanges fail only on a mismatch, and writes return `EINTR` only for signals. -/
def Genuine (ls : List (Label Tid (Action T))) : Prop :=
  (∀ l ∈ ls, genuine l = true) ∧ writeEintrs ls ≤ ls.countP Label.isSignal

/-- 1 for the exchange that begins an iteration of the loop in `lock_contended`. -/
def iterates (_ : Shared T) (f : Frame T) : Action T → ℕ
  | .op (.win _) _ => f.pc.contended.toNat
  | .op (.lose _) _ => f.pc.contended.toNat
  | _ => 0

/-- 1 when the first exchange of a call fails. -/
def contends (_ : Shared T) (f : Frame T) : Action T → ℕ
  | .op (.lose _) _ =>
    match f.pc with
    | .lock _ => 1
    | _ => 0
  | _ => 0

/-- 1 when a write puts a byte into the pipe. -/
def writes (capacity : ℕ) (s : Shared T) (_ : Frame T) : Action T → ℕ
  | .op .write _ => if s.bytes < capacity then 1 else 0
  | _ => 0

/-- 1 when a signal makes the `read` of the frame return `EINTR`. -/
def interrupts (f : Frame T) : ℕ :=
  match f.pc with
  | .reading _ => 1
  | _ => 0

section Run
variable (x : T) (capacity stale : ℕ) (ls : List (Label Tid (Action T)))

def iterations : ℕ := charge (system x capacity) (onAct iterates) (new x stale) ls

def contendedCalls : ℕ := charge (system x capacity) (onAct contends) (new x stale) ls

def bytesWritten : ℕ := charge (system x capacity) (onAct (writes capacity)) (new x stale) ls

def interruptions : ℕ := charge (system x capacity) (onSignal interrupts) (new x stale) ls

end Run

/-- The frame is on its way to an exchange of the loop. -/
def Pc.pending : Pc → ℕ
  | .fetchAdd _ => 1
  | .fence _ => 1
  | .exchange _ => 1
  | _ => 0

def Frame.pending (f : Frame T) : ℕ := f.pc.pending

theorem lockContended_pending (t holder : Tid) : (lockContended t holder).pending ≤ 1 := by
  unfold lockContended
  split_ifs <;> simp [Pc.pending]

theorem retry_pending {t holder : Tid} (h : holder ≠ 0) : (retry t holder).pending = 0 := by
  unfold retry
  rw [if_neg h]
  split_ifs <;> rfl

theorem unlock_pending (t holder : Tid) (contended : Bool) :
    (unlock t contended holder).pending = 0 := by
  unfold unlock
  split_ifs <;> rfl

theorem weighs_pending (capacity : ℕ) :
    Weighs (program T capacity) Frame.pending 0 interrupts where
  entry := rfl
  deliver _ _ f := by
    obtain ⟨pc, gs⟩ := f
    cases pc <;> simp [program, Frame.pending, interrupts, Pc.step, Pc.pending]
  returns f h := by rw [returns_cases h]; rfl
  handOut f f₀ f' f₀' h := by
    obtain ⟨gs, rfl, rfl, rfl⟩ := handOut_cases h
    rfl

theorem Acts.pending {capacity : ℕ} {t : Tid} {a : Action T} {s s' : Shared T} {f f' : Frame T}
    (h : Acts capacity t s a f s' f') (hgen : genuine (.act t a) = true) :
    f'.pending + s'.bytes + iterates s f a ≤
      f.pending + s.bytes + contends s f a + writes capacity s f a := by
  cases h with
  | @contend u tid gs =>
    have hle := lockContended_pending tid s.holderTid
    simp only [Frame.pending, iterates, contends, writes, Pc.contended, Bool.toNat_false]
    omega
  | @lose u tid gs =>
    have hne : s.holderTid ≠ 0 := by simpa [genuine] using hgen
    have hz := retry_pending (t := tid) hne
    have hpend : (Pc.exchange tid).pending = 1 := rfl
    simp only [Frame.pending, iterates, contends, writes, Pc.contended, hz, hpend,
      Bool.toNat_true]
    omega
  | @drop g gs =>
    have hz := unlock_pending g.tid s.holderTid g.contended
    simp only [Frame.pending, iterates, contends, writes, hz]
    omega
  | @load u gs =>
    have hz : Pc.pending (if 0 < s.waiters then .write else .client) = 0 := by
      split_ifs <;> rfl
    simp only [Frame.pending, iterates, contends, writes, hz]
    omega
  | read hb =>
    simp only [Frame.pending, Pc.pending, iterates, contends, writes]
    omega
  | write hb =>
    simp only [Frame.pending, Pc.pending, iterates, contends, writes, if_pos hb]
    omega
  | writeFull hb =>
    simp only [Frame.pending, Pc.pending, iterates, contends, writes, if_neg hb]
    omega
  | _ =>
    simp only [Frame.pending, Pc.pending, iterates, contends, writes, Pc.contended,
      Bool.toNat_true, Bool.toNat_false]
    omega

/-- The bytes in the pipe and the frames on their way to an exchange. -/
noncomputable def potential (s : World T) : ℤ := mass Frame.pending s + s.shared.bytes

theorem potential_next {capacity : ℕ} {s s' : World T} {l : Label Tid (Action T)}
    (hl : genuine l = true) (h : InterruptStack.next (program T capacity) s l = some s') :
    potential s' + onAct iterates s l ≤ potential s +
      (onAct contends s l + (onAct (writes capacity) s l + onSignal interrupts s l) : ℕ) := by
  rcases (conserves capacity).live_next h with
    ⟨-, hact⟩ | ⟨t, a, f, fs, g', f', rfl, hs, ha, rfl⟩
  · have hw := (weighs_pending capacity).mass_next h hact
    have hbytes : s'.shared.bytes = s.shared.bytes := by
      rcases shared_next h hact with he | ⟨t, f, he⟩ <;> rw [he]
      rfl
    have hcost : onAct iterates s l = 0 := by
      cases l <;> first | rfl | exact absurd rfl (hact _ _)
    simp only [potential, hbytes, hcost]
    omega
  · have hp := (act_cases ha).pending hl
    have hput := mass_put_cons Frame.pending f' g' hs
    have hsignal : onSignal interrupts s (.act t a : Label Tid (Action T)) = 0 := rfl
    have hon (c : Shared T → Frame T → Action T → ℕ) :
        onAct c s (.act t a) = c s.shared f a := by simp [onAct, hs]
    simp only [potential, State.put_shared, hon, hsignal]
    omega

theorem iterations_le {x : T} {capacity stale : ℕ} {ls : List (Label Tid (Action T))}
    {s : World T} (h : run (system x capacity) (new x stale) ls = some s)
    (hgen : ∀ l ∈ ls, genuine l = true) :
    iterations x capacity stale ls ≤ contendedCalls x capacity stale ls + stale +
      bytesWritten x capacity stale ls + interruptions x capacity stale ls := by
  have hstep : ∀ s a s' as, (∀ b ∈ a :: as, genuine b = true) →
      (system x capacity).next s a = some s' → (∀ b ∈ as, genuine b = true) ∧
      potential s' + onAct iterates s a ≤ potential s +
        (onAct contends s a + (onAct (writes capacity) s a + onSignal interrupts s a) : ℕ) := by
    intro s a s' as hg hs
    exact ⟨fun b hb => hg b (List.mem_cons_of_mem _ hb),
      potential_next (hg a List.mem_cons_self) hs⟩
  obtain ⟨-, hle⟩ := balance (I := fun _ as => ∀ b ∈ as, genuine b = true) hstep hgen h
  rw [charge_add, charge_add] at hle
  have hzero : mass Frame.pending (new x stale) = 0 := mass_empty fun _ => rfl
  have hbytes : (new x stale).shared.bytes = stale := rfl
  simp only [potential, hzero, hbytes] at hle
  unfold iterations contendedCalls bytesWritten interruptions
  omega

/-- The steps that a frame can still take on its own, when every byte in the pipe allows
it three more. -/
def Pc.work : Pc → ℕ
  | .lock _ => 15
  | .fetchAdd _ => 14
  | .fence _ => 13
  | .exchange _ => 12
  | .read _ => 11
  | .reading _ => 10
  | .fetchSub _ => 2
  | .ret _ => 1
  | .fenceUnlock => 6
  | .load => 5
  | .write => 4
  | _ => 0

def PipeLockGuard.work (g : PipeLockGuard T) : ℕ := g.body.stage.left + 7

def Frame.work (f : Frame T) : ℕ := f.pc.work + (f.guards.map PipeLockGuard.work).sum + 1

theorem lockContended_work (t holder : Tid) : (lockContended t holder).work ≤ 14 := by
  unfold lockContended
  split_ifs <;> simp [Pc.work]

theorem retry_work {t holder : Tid} (h : holder ≠ 0) : (retry t holder).work ≤ 11 := by
  unfold retry
  rw [if_neg h]
  split_ifs <;> simp [Pc.work]

theorem unlock_work (t holder : Tid) (contended : Bool) :
    (unlock t contended holder).work ≤ 6 := by
  unfold unlock
  split_ifs <;> simp [Pc.work]

theorem weighs_work (capacity : ℕ) :
    Weighs (program T capacity) Frame.work 1 fun f => 2 * interrupts f where
  entry := rfl
  deliver _ _ f := by
    obtain ⟨pc, gs⟩ := f
    cases pc <;> simp [program, Frame.work, interrupts, Pc.step, Pc.work]
    omega
  returns f h := by rw [returns_cases h]; rfl
  handOut f f₀ f' f₀' h := by
    obtain ⟨gs, rfl, rfl, rfl⟩ := handOut_cases h
    simp only [Frame.work, List.map_append, List.sum_append, List.map_nil, List.sum_nil]
    omega

theorem Acts.work {capacity : ℕ} {t : Tid} {a : Action T} {s s' : Shared T} {f f' : Frame T}
    (h : Acts capacity t s a f s' f') (hgen : genuine (.act t a) = true) :
    f'.work + 3 * s'.bytes + 1 ≤
      f.work + 3 * s.bytes + 16 * a.isLock.toNat + a.isWriteEintr.toNat := by
  cases h with
  | lock =>
    simp only [Frame.work, Pc.work, Action.isLock, Bool.toNat_true]
    omega
  | win _ =>
    simp only [Frame.work, Pc.work, List.map_cons, List.sum_cons, PipeLockGuard.work,
      Section.enter, Stage.left]
    omega
  | winContended _ =>
    simp only [Frame.work, Pc.work, List.map_cons, List.sum_cons, PipeLockGuard.work,
      Section.enter, Stage.left]
    omega
  | @contend u tid gs =>
    have hle := lockContended_work tid s.holderTid
    have hlock : (Pc.lock tid).work = 15 := rfl
    simp only [Frame.work, hlock]
    omega
  | @lose u tid gs =>
    have hne : s.holderTid ≠ 0 := by simpa [genuine] using hgen
    have hle := retry_work (t := tid) hne
    have hexchange : (Pc.exchange tid).work = 12 := rfl
    simp only [Frame.work, hexchange]
    omega
  | @load u gs =>
    have hle : Pc.work (if 0 < s.waiters then .write else .client) ≤ 4 := by
      split_ifs <;> simp [Pc.work]
    have hload : Pc.load.work = 5 := rfl
    simp only [Frame.work, hload]
    omega
  | writeEintr =>
    simp only [Frame.work, Action.isWriteEintr, Bool.toNat_true]
    omega
  | access hk =>
    have hleft := Section.access_left hk
    simp only [Frame.work, List.map_cons, List.sum_cons, PipeLockGuard.work]
    omega
  | @drop g gs =>
    have hle := unlock_work g.tid s.holderTid g.contended
    have hclient : Pc.client.work = 0 := rfl
    simp only [Frame.work, hclient, List.map_cons, List.sum_cons, PipeLockGuard.work]
    omega
  | _ =>
    simp only [Frame.work, Pc.work]
    omega

/-- What the steps of a run may be charged to. -/
def fare (l : Label Tid (Action T)) : ℕ :=
  16 * (l.isAct Action.isLock).toNat + ((l.isAct Action.isWriteEintr).toNat +
    (2 * l.isSpawn.toNat + (4 * l.isSignal.toNat + l.isHandOut.toNat)))

theorem interrupts_le (s : World T) (l : Label Tid (Action T)) :
    onSignal (fun f => 2 * interrupts f) s l ≤ 2 * l.isSignal.toNat := by
  cases l <;> simp only [onSignal, Label.isSignal, Bool.toNat_true, Nat.zero_le]
  split
  · omega
  · rename_i f fs _
    obtain ⟨pc, gs⟩ := f
    cases pc <;> simp [interrupts]

theorem work_next {capacity : ℕ} {s s' : World T} {l : Label Tid (Action T)}
    (hl : genuine l = true) (h : InterruptStack.next (program T capacity) s l = some s') :
    mass Frame.work s' + 3 * s'.shared.bytes + 1 ≤
      mass Frame.work s + 3 * s.shared.bytes + fare l := by
  rcases (conserves capacity).live_next h with
    ⟨-, hact⟩ | ⟨t, a, f, fs, g', f', rfl, hs, ha, rfl⟩
  · have hw := (weighs_work capacity).mass_next h hact
    have hi := interrupts_le s l
    have hbytes : s'.shared.bytes = s.shared.bytes := by
      rcases shared_next h hact with he | ⟨t, f, he⟩ <;> rw [he]
      rfl
    cases l with
    | act t a => exact absurd rfl (hact t a)
    | _ =>
      simp only [fare, Label.isAct, Label.isSpawn, Label.isSignal, Label.isHandOut,
        Label.isFinish, Bool.toNat_true, Bool.toNat_false] at hw hi ⊢
      omega
  · have hwork := (act_cases ha).work hl
    have hput := mass_put_cons Frame.work f' g' hs
    simp only [State.put_shared, fare, Label.isAct, Label.isSpawn, Label.isSignal,
      Label.isHandOut, Bool.toNat_false]
    omega

theorem length_le {x : T} {capacity stale : ℕ} {ls : List (Label Tid (Action T))}
    {s : World T} (h : run (system x capacity) (new x stale) ls = some s) (hgen : Genuine ls) :
    ls.length ≤ 16 * locks ls + 2 * ls.countP Label.isSpawn + 5 * ls.countP Label.isSignal +
      ls.countP Label.isHandOut + 3 * stale := by
  let Φ (s : World T) : ℤ := mass Frame.work s + 3 * s.shared.bytes
  let one : World T → Label Tid (Action T) → ℕ := fun _ _ => 1
  have hstep : ∀ s a s' as, (∀ b ∈ a :: as, genuine b = true) →
      (system x capacity).next s a = some s' →
      (∀ b ∈ as, genuine b = true) ∧ Φ s' + one s a ≤ Φ s + fare a := by
    intro s a s' as hg hs
    have hw := work_next (hg a List.mem_cons_self) hs
    refine ⟨fun b hb => hg b (List.mem_cons_of_mem _ hb), ?_⟩
    simp only [Φ, one]
    omega
  obtain ⟨-, hle⟩ := balance (I := fun _ as => ∀ b ∈ as, genuine b = true) hstep hgen.1 h
  have hzero : Φ (new x stale) = 3 * stale := by
    simp only [Φ, mass_empty (s := new x stale) fun _ => rfl]
    simp [new]
  have hpos : 0 ≤ Φ s := by
    simp only [Φ]
    omega
  have hcost : charge (system x capacity) one (new x stale) ls = ls.length := by
    rw [charge_label h]
    simp
  have hincome : charge (system x capacity) (fun _ l => fare l) (new x stale) ls =
      16 * locks ls + (writeEintrs ls + (2 * ls.countP Label.isSpawn +
        (4 * ls.countP Label.isSignal + ls.countP Label.isHandOut))) := by
    simp only [fare, charge_add, charge_mul, charge_countP h]
    rfl
  have heintr := hgen.2
  rw [hcost, hincome, hzero] at hle
  omega

/-- The steps that a workload consists of: its threads, its signals, its calls of `lock`,
and the guards that handlers leave behind. Every acquisition allows one drop. -/
def workload (l : Label Tid (Action T)) : Bool :=
  l.isSpawn || l.isSignal || l.isHandOut || l.isAct Action.isLock

/-- Over a whole run, in any order of steps, every iteration has its own contended call,
byte or interrupted read, and the workload bounds the steps; no infinite run has a finite
workload. -/
theorem pipe_no_livelock (x : T) (capacity stale : ℕ) :
    (∀ ls s, run (system x capacity) (new x stale) ls = some s → Genuine ls →
      iterations x capacity stale ls ≤ contendedCalls x capacity stale ls + stale +
        bytesWritten x capacity stale ls + interruptions x capacity stale ls ∧
      ls.length ≤ 16 * locks ls + 2 * ls.countP Label.isSpawn + 5 * ls.countP Label.isSignal +
        ls.countP Label.isHandOut + 3 * stale) ∧
    ∀ l : ℕ → Label Tid (Action T), (∀ n, Genuine (upTo l n)) →
      {n | workload (l n) = true}.Finite → ¬ Endless (system x capacity) (new x stale) l := by
  refine ⟨fun ls s h hgen => ⟨iterations_le h hgen.1, length_le h hgen⟩, ?_⟩
  intro l hgen hwork
  refine not_endless workload Genuine (fun n => 24 * n + 3 * stale) ?_ ?_ hgen hwork
  · intro m n hmn
    simp only
    omega
  · intro ls s hg h
    have hlen := length_le h hg
    have hwork := countP_le_workload Action.isLock ls
    change _ ≤ ls.countP workload ∧ _ ≤ ls.countP workload ∧ _ ≤ ls.countP workload ∧
      _ ≤ ls.countP workload at hwork
    obtain ⟨hspawn, hsignal, hout, hlocks⟩ := hwork
    unfold locks at hlen
    omega

theorem pipe_no_livelock_contention :
    (∃ s, run (system 5 1) (new 5 1) contention = some s ∧ iterations 5 1 1 contention = 1 ∧
      iterations 5 1 1 contention ≤ 1 + 1 + 0 + 0) ∧
    ¬ Endless (system 5 1) (new 5 1) fun _ => .act 1 .ret := by
  obtain ⟨hruns, hendless⟩ := pipe_no_livelock 5 1 1
  constructor
  · have hs : run (system 5 1) (new 5 1) contention = some _ := rfl
    have hgen : Genuine contention := ⟨by simp [contention, genuine], by decide⟩
    exact ⟨_, hs, rfl, (hruns contention _ hs hgen).1⟩
  · refine hendless (fun _ => .act 1 .ret) ?_ ?_
    · intro n
      simp [Genuine, upTo, genuine, writeEintrs, Label.isAct, Action.isWriteEintr,
        List.countP_replicate]
    · simp [workload, Label.isSpawn, Label.isSignal, Label.isHandOut, Label.isAct, Action.isLock]

end SignalCrates.PipeLock
