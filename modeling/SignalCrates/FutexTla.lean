import SignalCrates.AlgorithmSimulation
import SignalCrates.FutexTermination
import SignalCrates.FutexReentrancy

/-!
# futex.tla

`lockUnlock` has one case for each label of the procedure. Its runs are runs of the code in
`futex.rs`: a process is a thread, and a call at a label is a frame just before the atomic
operation that the label stands for. So the assertions and the termination that the model
checker tests for a few processes hold for as many as there are valid tids.
-/
namespace SignalCrates.FutexTla
open TransitionSystem InterruptStack MutexAlgorithm SignalLock FutexWord Completion Fairness

inductive Lbl
  | l0
  | lCnt
  | l1
  | l2
  | l3
  | l4
  | l5
  | w0
  | w1
  | l6
  | l7
  | cs
  | u0
  | u1
  | u2
  | uEnd

structure Globals (Proc : Type*) where
  holderTid : Option Proc
  waitersFlag : Bool
  waitersSet : Finset Proc
  isWaiting : Proc → Bool
  inCriticalSection : Bool

structure Locals (Proc : Type*) where
  gotTid : Option Proc
  gotFlag : Bool

variable {Proc : Type*}

/-- The macro `futex_wake`, with the process that it chooses. -/
def futexWake [DecidableEq Proc] (g : Globals Proc) (chosen : Option Proc) :
    Option (Globals Proc) :=
  if g.waitersSet = ∅ then some g
  else
    match chosen with
    | some p =>
      if p ∈ g.waitersSet then
        some { g with
          waitersSet := g.waitersSet.erase p
          isWaiting := Function.update g.isWaiting p false }
      else none
    | none => none

/-- `got_tid := holder_tid; got_flag := waiters_flag`. -/
def Globals.got (g : Globals Proc) : Locals Proc := ⟨g.holderTid, g.waitersFlag⟩

def lockUnlock [DecidableEq Proc] (self : Proc) (chosen : Option Proc) (l : Lbl)
    (g : Globals Proc) (v : Locals Proc) : Option (Globals Proc × Locals Proc × Exit Lbl) :=
  match l with
  | .l0 =>
    if g.holderTid = none ∧ g.waitersFlag = false then
      some ({ g with holderTid := some self }, v, .goto .cs)
    else some (g, g.got, .goto .lCnt)
  | .lCnt => some (g, v, .maybeSignal .l1)
  | .l1 => if v.gotTid = some self then some (g, v, .recursive) else some (g, v, .goto .l2)
  | .l2 =>
    if v.gotTid = none then
      if g.holderTid = v.gotTid ∧ g.waitersFlag = v.gotFlag then
        some ({ g with holderTid := some self, waitersFlag := true }, v, .goto .cs)
      else some (g, g.got, .goto .lCnt)
    else some (g, v, .goto .l3)
  | .l3 => some (g, v, .maybeSignal .l4)
  | .l4 =>
    if v.gotFlag = false then
      if g.waitersFlag = v.gotFlag ∧ g.holderTid = v.gotTid then
        some ({ g with waitersFlag := true }, { v with gotFlag := true }, .goto .l5)
      else some (g, g.got, .goto .lCnt)
    else some (g, v, .goto .l5)
  | .l5 => some (g, v, .maybeSignal .w0)
  | .w0 =>
    if g.holderTid = v.gotTid ∧ g.waitersFlag = v.gotFlag then
      some ({ g with
        waitersSet := insert self g.waitersSet
        isWaiting := Function.update g.isWaiting self true }, v, .goto .w1)
    else some (g, v, .goto .l6)
  | .w1 => if g.isWaiting self = false then some (g, v, .goto .l6) else none
  | .l6 => some (g, v, .maybeSignal .l7)
  | .l7 => some (g, g.got, .goto .lCnt)
  | .cs => some ({ g with inCriticalSection := true }, v, .goto .u0)
  | .u0 =>
    some ({ g with holderTid := none, waitersFlag := false, inCriticalSection := false },
      g.got, .goto .u1)
  | .u1 => some (g, v, .maybeSignal .u2)
  | .u2 =>
    if v.gotFlag = true then (futexWake g chosen).map fun g' => (g', v, .goto .uEnd)
    else some (g, v, .goto .uEnd)
  | .uEnd => some (g, v, .uEnd)

def algorithm (Proc : Type*) [DecidableEq Proc] (maxSignalDepth maxIterations : ℤ) :
    Algorithm Proc Lbl (Globals Proc) (Locals Proc) where
  maxSignalDepth := maxSignalDepth
  maxIterations := maxIterations
  globals := ⟨none, false, ∅, fun _ => false, false⟩
  locals := ⟨none, false⟩
  entry := .l0
  lockUnlock := lockUnlock

/-- The assertion at the label where a process stands. -/
def Asserts (s : MutexAlgorithm.State Proc Lbl (Globals Proc) (Locals Proc)) (p : Proc) : Prop :=
  match (s.process p).pc with
  | .lockUnlock .l1 => (s.process p).locals.gotTid = some p → 0 < (s.process p).signalDepth
  | .lockUnlock .cs => s.globals.inCriticalSection = false
  | .lockUnlock .u0 => s.globals.inCriticalSection = true
  | _ => True

section Code

variable (tid : Proc → Tid)

/-- The futex word for `holder_tid` and `waiters_flag`. -/
def futexWord : Option Proc → Bool → Word
  | none, _ => 0
  | some p, false => tid p
  | some p, true => tid p ||| FUTEX_WAITERS

/-- The code that goes on with a word it has read. -/
def contended (p : Proc) (v : Locals Proc) : FutexLock.Pc :=
  match v.gotTid, v.gotFlag with
  | none, _ => .acquire (tid p)
  | some q, false => .setWaiters (tid p) (tid q)
  | some q, true => .wait (tid p) (tid q ||| FUTEX_WAITERS)

/-- The values of a word that is free or held by another process. -/
def Foreign (p : Proc) (v : Locals Proc) : Prop :=
  v.gotTid ≠ some p ∧ (v.gotTid = none → v.gotFlag = false)

/-- A frame inside the critical section, after `lock` has returned. -/
def Inside (f : FutexLock.Frame Unit) : Prop := f.pc = .client ∧ f.guards ≠ []

/-- The frame that a call of process `p` at a label stands for. -/
def Stands (p : Proc) (l : Lbl) (v : Locals Proc) (f : FutexLock.Frame Unit) : Prop :=
  match l with
  | .l0 => f = ⟨.rawLock (tid p), []⟩
  | .lCnt | .l1 | .l2 => Foreign p v ∧ f = ⟨contended tid p v, []⟩
  | .l3 | .l4 => Foreign p v ∧ v.gotTid ≠ none ∧ f = ⟨contended tid p v, []⟩
  | .l5 | .w0 =>
    Foreign p v ∧ v.gotTid ≠ none ∧ v.gotFlag = true ∧ f = ⟨contended tid p v, []⟩
  | .w1 => f = ⟨.waiting (tid p), []⟩
  | .l6 | .l7 => f = ⟨.reload (tid p), []⟩
  | .cs => ∃ g, f = ⟨.ret (.ok ()), [g]⟩
  | .u0 => ∃ g, f = ⟨.client, [g]⟩
  | .u1 | .u2 => f = ⟨if v.gotFlag then .wake else .client, []⟩
  | .uEnd => f = ⟨.client, []⟩

structure Matches (g : Globals Proc) (a : FutexLock.World Unit) : Prop where
  word : a.shared.word = futexWord tid g.holderTid g.waitersFlag
  free : g.holderTid = none → g.waitersFlag = false
  queue : a.shared.queue = g.waitersSet.image tid
  waiting : ∀ p, g.isWaiting p = true ↔ p ∈ g.waitersSet
  inside : Flags Inside g.inCriticalSection a

/-- The steps before the next one of the code. -/
def rank : Lbl → ℕ
  | .lCnt => 6
  | .l1 => 5
  | .l2 => 4
  | .l3 => 3
  | .l4 => 2
  | .l5 => 1
  | .l6 => 1
  | .u1 => 2
  | .u2 => 1
  | _ => 0

def correspondence :
    Correspondence Proc Lbl (Globals Proc) (Locals Proc) Tid (FutexLock.Shared Unit)
      (FutexLock.Frame Unit) where
  tid := tid
  frame := Stands tid
  globals := Matches tid
  rank := rank

variable {tid} {g : Globals Proc} {a : FutexLock.World Unit} {p : Proc}
variable {f : FutexLock.Frame Unit} {fs : List (FutexLock.Frame Unit)}

theorem futexWord_eq_zero_iff (hvalid : ∀ p, validTid (tid p) = true) (h : Option Proc) (b : Bool) :
    futexWord tid h b = 0 ↔ h = none := by
  cases h with
  | none => simp [futexWord]
  | some p =>
    cases b with
    | false => simpa [futexWord] using validTid_ne_zero (hvalid p)
    | true => simpa [futexWord] using HeldBy.ne_zero (hvalid p) (.inr rfl)

theorem futexWord_mask (hvalid : ∀ p, validTid (tid p) = true) (p : Proc) (b : Bool) :
    futexWord tid (some p) b &&& FUTEX_TID_MASK = tid p := by
  cases b with
  | false => exact validTid_mask (hvalid p)
  | true => exact or_waiters_and_mask (hvalid p)

/-- The word tells the holder and the flag apart. -/
theorem futexWord_eq_some_iff (hinj : Function.Injective tid)
    (hvalid : ∀ p, validTid (tid p) = true) (h : Option Proc) (b : Bool) (q : Proc) (c : Bool) :
    futexWord tid h b = futexWord tid (some q) c ↔ h = some q ∧ b = c := by
  refine ⟨fun he => ?_, fun ⟨hh, hbc⟩ => by rw [hh, hbc]⟩
  cases h with
  | none => exact absurd ((futexWord_eq_zero_iff hvalid _ _).mp he.symm) (by simp)
  | some p =>
    have hmask := futexWord_mask hvalid p b
    rw [he, futexWord_mask hvalid] at hmask
    obtain rfl := hinj hmask
    have hne := or_waiters_ne (hvalid q)
    cases b <;> cases c
    · exact ⟨rfl, rfl⟩
    · exact absurd he.symm hne
    · exact absurd he hne
    · exact ⟨rfl, rfl⟩

theorem rawLockContended_word (hinj : Function.Injective tid)
    (hvalid : ∀ p, validTid (tid p) = true) {v : Locals Proc} (h : Foreign p v) :
    FutexLock.rawLockContended (tid p) (futexWord tid v.gotTid v.gotFlag) = contended tid p v := by
  obtain ⟨hp, hnone⟩ := h
  obtain ⟨o, b⟩ := v
  cases o with
  | none =>
    have h0 : ¬ (0 : Word) &&& FUTEX_TID_MASK = tid p := by
      rw [show (0 : Word) &&& FUTEX_TID_MASK = 0 by decide]
      exact (validTid_ne_zero (hvalid p)).symm
    simp only [futexWord, contended, FutexLock.rawLockContended, h0, if_false, if_true]
  | some q =>
    have hmask : ¬ futexWord tid (some q) b &&& FUTEX_TID_MASK = tid p := by
      rw [futexWord_mask hvalid]
      exact fun he => hp (congrArg some (hinj he))
    have h0 : ¬ futexWord tid (some q) b = 0 := by
      rw [futexWord_eq_zero_iff hvalid]
      simp
    simp only [FutexLock.rawLockContended, hmask, h0, if_false]
    cases b with
    | false => simp only [futexWord, contended, validTid_and_waiters (hvalid q), if_true]
    | true => simp only [futexWord, contended, or_waiters_and_waiters, if_false]

theorem resumes_cases [DecidableEq Proc] {d n : ℤ} {l : Lbl}
    (hl : (algorithm Proc d n).Resumes l) :
    l = .l1 ∨ l = .l4 ∨ l = .w0 ∨ l = .l7 ∨ l = .u2 := by
  obtain ⟨self, chosen, l₀, g, v, g', v', hl⟩ := hl
  change lockUnlock self chosen l₀ g v = some (g', v', .maybeSignal l) at hl
  cases l₀ <;> simp only [lockUnlock] at hl <;> (try split_ifs at hl) <;> simp_all

/-- Only a wait for a wake-up can block a step. -/
theorem lockUnlock_eq_none [DecidableEq Proc] {l : Lbl} {v : Locals Proc}
    (h : ∀ q, lockUnlock p q l g v = none) : l = .w1 ∧ g.isWaiting p = true := by
  cases l <;> simp only [lockUnlock] at h <;> (try split_ifs at h) <;> simp_all
  by_cases hempty : g.waitersSet = ∅
  · simp [futexWake, hempty] at h
  · obtain ⟨u, hu⟩ := Finset.nonempty_iff_ne_empty.mpr hempty
    have hnone := h (some u)
    simp [futexWake, hempty, hu] at hnone

theorem contended_ne_waiting (p : Proc) (v : Locals Proc) (t : Tid) :
    contended tid p v ≠ .waiting t := by
  unfold contended
  split <;> simp

/-- The frame of another call on the thread holds no guard. -/
theorem guards_of_resumes [DecidableEq Proc] {d n : ℤ} {l : Lbl} {v : Locals Proc}
    (hl : (algorithm Proc d n).Resumes l) (hf : Stands tid p l v f) : f.guards = [] := by
  rcases resumes_cases hl with rfl | rfl | rfl | rfl | rfl
  · exact hf.2 ▸ rfl
  · exact hf.2.2 ▸ rfl
  · exact hf.2.2.2 ▸ rfl
  · exact hf ▸ rfl
  · exact hf ▸ rfl

variable (hinj : Function.Injective tid) (hvalid : ∀ p, validTid (tid p) = true)
variable (hr : Reach (FutexLock.system ()) FutexLock.noHandOut a) (hg : Matches tid g a)
variable (hs : a.stack (tid p) = f :: fs) (hbelow : ∀ k ∈ fs, k.guards = [])

include hvalid hr hg hs hbelow in
/-- The word that a frame without a guard reads is not its own. -/
theorem foreign_got (hf : f.guards = []) : Foreign p g.got := by
  refine ⟨fun hp => ?_, hg.free⟩
  change g.holderTid = some p at hp
  have hword := hg.word
  rw [hp] at hword
  refine (FutexLock.holder_eq_iff hr (hvalid p)).mp (by rw [hword, futexWord_mask hvalid]) ?_
  rw [FutexLock.guards, live, hs, List.flatMap_cons, hf, List.nil_append,
    List.flatMap_eq_nil_iff]
  exact hbelow

include hvalid hr hg hs hbelow in
theorem contended_got (hinj : Function.Injective tid) (hf : f.guards = []) :
    Foreign p g.got ∧ FutexLock.rawLockContended (tid p) a.shared.word = contended tid p g.got := by
  have hforeign := foreign_got hvalid hr hg hs hbelow hf
  exact ⟨hforeign, hg.word ▸ rawLockContended_word hinj hvalid hforeign⟩

/-- A step of a thread that does not change which frames are inside. -/
theorem Matches.put (hg : Matches tid g a) {t : Tid} {g' : Globals Proc}
    {s : FutexLock.Shared Unit} {fs' : List (FutexLock.Frame Unit)}
    (hcs : g'.inCriticalSection = g.inCriticalSection)
    (hi : (∃ k ∈ fs', Inside k) ↔ ∃ k ∈ a.stack t, Inside k)
    (hword : s.word = futexWord tid g'.holderTid g'.waitersFlag)
    (hfree : g'.holderTid = none → g'.waitersFlag = false)
    (hqueue : s.queue = g'.waitersSet.image tid)
    (hwaiting : ∀ q, g'.isWaiting q = true ↔ q ∈ g'.waitersSet) :
    Matches tid g' (a.put t s fs') := by
  refine ⟨hword, hfree, hqueue, hwaiting, ?_⟩
  rw [hcs]
  exact hg.inside.put hi

theorem exists_inside_cons {t : Tid} {f f' : FutexLock.Frame Unit}
    {fs : List (FutexLock.Frame Unit)} (hs : a.stack t = f :: fs) (hf : ¬ Inside f)
    (hf' : ¬ Inside f') : (∃ k ∈ f' :: fs, Inside k) ↔ ∃ k ∈ a.stack t, Inside k := by
  simp [hs, hf, hf']

theorem not_inside_of_guards {f : FutexLock.Frame Unit} (hf : f.guards = []) : ¬ Inside f :=
  fun h => h.2 hf

/-- The code follows a step at label `l` after which the variables are `g` and `v`. -/
abbrev Follow (tid : Proc → Tid) (p : Proc) (l : Lbl) (g : Globals Proc) (v : Locals Proc)
    (a : FutexLock.World Unit) (fs : List (FutexLock.Frame Unit)) (e : Exit Lbl) : Prop :=
  Followed (correspondence tid) (FutexLock.system ()) FutexLock.quiet p l g v a fs e

theorem exchange_rawLock (t : Tid) (s : FutexLock.Shared Unit) :
    FutexLock.act t (.exchange false id) s ⟨.rawLock t, []⟩ =
      if s.word = 0 then some (s.take t id, ⟨.ret (.ok ()), [⟨t, .enter id⟩]⟩)
      else some (s, ⟨FutexLock.rawLockContended t s.word, []⟩) := by
  simp only [FutexLock.act, FutexLock.compareExchangeWeak]
  split_ifs <;> simp_all [FutexLock.Frame.take]

theorem exchange_acquire (t : Tid) (s : FutexLock.Shared Unit) :
    FutexLock.act t (.exchange false id) s ⟨.acquire t, []⟩ =
      if s.word = 0 then
        some (s.take (t ||| FUTEX_WAITERS) id, ⟨.ret (.ok ()), [⟨t, .enter id⟩]⟩)
      else some (s, ⟨FutexLock.rawLockContended t s.word, []⟩) := by
  simp only [FutexLock.act, FutexLock.compareExchangeWeak]
  split_ifs <;> simp_all [FutexLock.Frame.take]

theorem exchange_setWaiters (t : Tid) (w : Word) (s : FutexLock.Shared Unit) :
    FutexLock.act t (.exchange false id) s ⟨.setWaiters t w, []⟩ =
      if s.word = w then
        some ({ s with word := w ||| FUTEX_WAITERS }, ⟨.wait t (w ||| FUTEX_WAITERS), []⟩)
      else some (s, ⟨FutexLock.rawLockContended t s.word, []⟩) := by
  simp only [FutexLock.act, FutexLock.compareExchangeWeak]
  split_ifs <;> simp_all

include hinj hvalid hr hg hs hbelow in
/-- A failed exchange, or the load after a wait, reads the word into the local variables. -/
theorem follow_got {l : Lbl} {b : FutexLock.Action Unit} (hf : f.guards = [])
    (hq : FutexLock.quiet (.act (tid p) b) = true)
    (hact : FutexLock.act (tid p) b a.shared f =
      some (a.shared, ⟨FutexLock.rawLockContended (tid p) a.shared.word, []⟩)) :
    Follow tid p l g g.got a fs (.goto .lCnt) := by
  obtain ⟨hforeign, hpc⟩ := contended_got hvalid hr hg hs hbelow hinj hf
  rw [hpc] at hact
  refine followed_act rfl (.inl rfl) hs hact hq ?_ ⟨hforeign, rfl⟩
  exact hg.put rfl (exists_inside_cons hs (not_inside_of_guards hf) (not_inside_of_guards rfl))
    hg.word hg.free hg.queue hg.waiting

include hg hs in
/-- The exchange takes the lock. -/
theorem follow_take {l : Lbl} {v : Locals Proc} {b : Bool} (hf : f.guards = [])
    (hact : FutexLock.act (tid p) (.exchange false id) a.shared f =
      some (a.shared.take (futexWord tid (some p) b) id, ⟨.ret (.ok ()), [⟨tid p, .enter id⟩]⟩)) :
    Follow tid p l { g with holderTid := some p, waitersFlag := b } v a fs (.goto .cs) := by
  refine followed_act rfl (.inl rfl) hs hact rfl ?_ ⟨_, rfl⟩
  refine hg.put rfl (exists_inside_cons hs (not_inside_of_guards hf) ?_) rfl (by simp) hg.queue
    hg.waiting
  rintro ⟨⟨⟩, -⟩

include hvalid hr hg hs in
/-- A guard on the innermost frame belongs to the process, which holds the lock. -/
theorem holder_of_guard {k : FutexLock.FutexLockGuard Unit} (hf : f.guards = [k])
    (hinj : Function.Injective tid) : k.tid = tid p ∧ g.holderTid = some p := by
  obtain ⟨hk, howned⟩ := FutexLock.of_guard hr hs hf
  refine ⟨hk, ?_⟩
  have hmask := howned.2.holder (hvalid p)
  rw [hg.word] at hmask
  cases hh : g.holderTid with
  | none =>
    rw [hh] at hmask
    have hzero : (0 : Word) &&& FUTEX_TID_MASK = 0 := by decide
    exact absurd (hmask.symm.trans hzero) (validTid_ne_zero (hvalid p))
  | some q =>
    rw [hh, futexWord_mask hvalid] at hmask
    rw [hinj hmask]

include hvalid hr hs hbelow in
/-- While a frame holds a guard, no other frame is inside the critical section. -/
theorem not_inside_of_guard {k : FutexLock.FutexLockGuard Unit} (hf : f.guards = [k]) {t : Tid}
    {f' : FutexLock.Frame Unit} (hf' : f' ∈ a.stack t) (hi : Inside f') : t = tid p ∧ f' = f := by
  have hown : FutexLock.guards a (tid p) ≠ [] := by
    rw [FutexLock.guards, live, hs, List.flatMap_cons, hf]
    simp
  have hother : FutexLock.guards a t ≠ [] := by
    intro he
    rw [FutexLock.guards, live, List.flatMap_eq_nil_iff] at he
    exact hi.2 (he f' hf')
  obtain ⟨htid, hword⟩ := FutexLock.ownedBy_of_guards hr hother
  have ht : t = tid p :=
    (hword.holder htid).symm.trans ((FutexLock.holder_eq_iff hr (hvalid p)).mpr hown)
  refine ⟨ht, ?_⟩
  rw [ht, hs] at hf'
  rcases List.mem_cons.mp hf' with rfl | hmem
  · rfl
  · exact absurd (hbelow f' hmem) hi.2

theorem rawUnlock_word (p : Proc) (b : Bool) (hp : validTid (tid p) = true) :
    FutexLock.rawUnlock (tid p) (futexWord tid (some p) b) = if b then .wake else .client := by
  cases b with
  | false => simp [FutexLock.rawUnlock, futexWord, validTid_mask hp]
  | true =>
    simp only [FutexLock.rawUnlock, futexWord, or_waiters_and_mask hp, ne_eq, not_true_eq_false,
      if_false, or_waiters_ne hp, not_false_eq_true, if_true]

theorem Matches.word_eq_zero_iff (hg : Matches tid g a) (hvalid : ∀ p, validTid (tid p) = true) :
    a.shared.word = 0 ↔ g.holderTid = none := by
  rw [hg.word]
  exact futexWord_eq_zero_iff hvalid _ _

section Labels

variable [DecidableEq Proc] {q : Option Proc} {v v' : Locals Proc} {g' : Globals Proc}
variable {e : Exit Lbl}

include hinj hvalid hr hg hs hbelow in
theorem follow_l0 (hf : Stands tid p .l0 v f) (hl : lockUnlock p q .l0 g v = some (g', v', e)) :
    Follow tid p .l0 g' v' a fs e := by
  obtain rfl := hf
  have hact := exchange_rawLock (tid p) a.shared
  simp only [lockUnlock] at hl
  split_ifs at hl with hc <;> obtain ⟨rfl, rfl, rfl⟩ : _ ∧ _ ∧ _ := by simpa using hl
  · rw [if_pos ((hg.word_eq_zero_iff hvalid).mpr hc.1)] at hact
    have htake := follow_take (l := .l0) (v := v) (b := false) hg hs rfl hact
    rwa [← hc.2] at htake
  · have hne : g.holderTid ≠ none := fun hn => hc ⟨hn, hg.free hn⟩
    rw [if_neg (hne ∘ (hg.word_eq_zero_iff hvalid).mp)] at hact
    exact follow_got hinj hvalid hr hg hs hbelow rfl rfl hact

include hinj hvalid hr hg hs hbelow in
theorem follow_l2 (hf : Stands tid p .l2 v f) (hl : lockUnlock p q .l2 g v = some (g', v', e)) :
    Follow tid p .l2 g' v' a fs e := by
  obtain ⟨hforeign, rfl⟩ := hf
  simp only [lockUnlock] at hl
  split_ifs at hl with hnone hc <;> obtain ⟨rfl, rfl, rfl⟩ : _ ∧ _ ∧ _ := by simpa using hl
  · have hpc : contended tid p v = .acquire (tid p) := by simp [contended, hnone]
    rw [hpc] at hs
    have hact := exchange_acquire (tid p) a.shared
    rw [if_pos ((hg.word_eq_zero_iff hvalid).mpr (hc.1.trans hnone))] at hact
    exact follow_take (b := true) hg hs rfl hact
  · have hpc : contended tid p v = .acquire (tid p) := by simp [contended, hnone]
    rw [hpc] at hs
    have hne : g.holderTid ≠ none :=
      fun hn => hc ⟨hn.trans hnone.symm, (hg.free hn).trans (hforeign.2 hnone).symm⟩
    have hact := exchange_acquire (tid p) a.shared
    rw [if_neg (hne ∘ (hg.word_eq_zero_iff hvalid).mp)] at hact
    exact follow_got hinj hvalid hr hg hs hbelow rfl rfl hact
  · exact followed_stay (.inl rfl) hs hg ⟨hforeign, hnone, rfl⟩ (Nat.lt_succ_self _)

include hinj hvalid hr hg hs hbelow in
theorem follow_l4 (hf : Stands tid p .l4 v f) (hl : lockUnlock p q .l4 g v = some (g', v', e)) :
    Follow tid p .l4 g' v' a fs e := by
  obtain ⟨hforeign, hne, rfl⟩ := hf
  obtain ⟨o, b⟩ := v
  obtain ⟨r, rfl⟩ := Option.ne_none_iff_exists'.mp hne
  simp only [lockUnlock] at hl
  split_ifs at hl with hflag hc <;> obtain ⟨rfl, rfl, rfl⟩ : _ ∧ _ ∧ _ := by simpa using hl
  · subst hflag
    have hword : a.shared.word = tid r := by rw [hg.word, hc.1, hc.2]; rfl
    have hact := exchange_setWaiters (tid p) (tid r) a.shared
    rw [if_pos hword] at hact
    refine followed_act (b := .exchange false id) rfl (.inl rfl) hs hact rfl ?_
      ⟨⟨hforeign.1, by simp⟩, by simp, rfl, rfl⟩
    refine hg.put rfl (exists_inside_cons hs (not_inside_of_guards rfl) (not_inside_of_guards rfl))
      ?_ ?_ hg.queue hg.waiting
    · rw [hc.2]
      rfl
    · simp [hc.2]
  · subst hflag
    have hword : a.shared.word ≠ tid r := by
      rw [hg.word]
      intro he
      have hsome := (futexWord_eq_some_iff hinj hvalid _ _ r false).mp he
      exact hc hsome.symm
    have hact := exchange_setWaiters (tid p) (tid r) a.shared
    rw [if_neg hword] at hact
    exact follow_got hinj hvalid hr hg hs hbelow rfl rfl hact
  · exact followed_stay (.inl rfl) hs hg ⟨hforeign, hne, by simpa using hflag, rfl⟩
      (Nat.lt_succ_self _)

include hinj hvalid hg hs in
theorem follow_w0 (hf : Stands tid p .w0 v f) (hl : lockUnlock p q .w0 g v = some (g', v', e)) :
    Follow tid p .w0 g' v' a fs e := by
  obtain ⟨hforeign, hne, hflag, rfl⟩ := hf
  obtain ⟨o, b⟩ := v
  obtain ⟨r, rfl⟩ := Option.ne_none_iff_exists'.mp hne
  obtain rfl : b = true := hflag
  have hword : a.shared.word = tid r ||| FUTEX_WAITERS ↔
      g.holderTid = some r ∧ g.waitersFlag = true := by
    rw [hg.word]
    exact futexWord_eq_some_iff hinj hvalid _ _ r true
  have hinside {pc : FutexLock.Pc} :=
    exists_inside_cons hs (not_inside_of_guards rfl) (not_inside_of_guards (f := ⟨pc, []⟩) rfl)
  simp only [lockUnlock] at hl
  split_ifs at hl with hc <;> obtain ⟨rfl, rfl, rfl⟩ : _ ∧ _ ∧ _ := by simpa using hl
  · refine followed_act (b := FutexLock.Action.wait) rfl (.inl rfl) hs
      (if_pos (hword.mpr hc)) rfl ?_ rfl
    refine hg.put rfl hinside hg.word hg.free ?_ ?_
    · rw [Finset.image_insert, hg.queue]
      rfl
    · intro u
      by_cases hu : u = p
      · simp [hu]
      · simp [hu, hg.waiting]
  · refine followed_act (b := FutexLock.Action.wait) rfl (.inl rfl) hs
      (if_neg (hc ∘ hword.mp)) rfl ?_ rfl
    exact hg.put rfl hinside hg.word hg.free hg.queue hg.waiting

include hinj hg hs in
theorem follow_w1 (hf : Stands tid p .w1 v f) (hl : lockUnlock p q .w1 g v = some (g', v', e)) :
    Follow tid p .w1 g' v' a fs e := by
  obtain rfl := hf
  simp only [lockUnlock] at hl
  split_ifs at hl with hc
  obtain ⟨rfl, rfl, rfl⟩ : _ ∧ _ ∧ _ := by simpa using hl
  have hqueue : tid p ∉ a.shared.queue := by
    rw [hg.queue, hinj.mem_finset_image, ← hg.waiting, hc]
    simp
  refine followed_act (b := FutexLock.Action.woken) rfl (.inl rfl) hs (if_neg hqueue) rfl ?_ rfl
  exact hg.put rfl (exists_inside_cons hs (not_inside_of_guards rfl) (not_inside_of_guards rfl))
    hg.word hg.free hg.queue hg.waiting

include hg hs in
theorem follow_cs (hf : Stands tid p .cs v f) (hl : lockUnlock p q .cs g v = some (g', v', e)) :
    Follow tid p .cs g' v' a fs e := by
  obtain ⟨k, rfl⟩ := hf
  simp only [lockUnlock] at hl
  obtain ⟨rfl, rfl, rfl⟩ : _ ∧ _ ∧ _ := by simpa using hl
  refine followed_act (b := FutexLock.Action.ret) rfl (.inl rfl) hs rfl rfl ?_ ⟨k, rfl⟩
  refine ⟨hg.word, hg.free, hg.queue, hg.waiting, fun _ => ?_, fun _ => rfl⟩
  exact ⟨tid p, ⟨.client, [k]⟩, by simp [correspondence], rfl, by simp⟩

include hinj hvalid hr hg hs hbelow in
theorem follow_u0 (hf : Stands tid p .u0 v f) (hl : lockUnlock p q .u0 g v = some (g', v', e)) :
    Follow tid p .u0 g' v' a fs e := by
  obtain ⟨k, rfl⟩ := hf
  simp only [lockUnlock] at hl
  obtain ⟨rfl, rfl, rfl⟩ : _ ∧ _ ∧ _ := by simpa using hl
  obtain ⟨hk, hholder⟩ := holder_of_guard hvalid hr hg hs rfl hinj
  have hact : FutexLock.act (tid p) .drop a.shared ⟨.client, [k]⟩ =
      some ({ a.shared with word := 0 }, ⟨if g.waitersFlag then .wake else .client, []⟩) := by
    simp only [FutexLock.act]
    rw [hk, hg.word, hholder, rawUnlock_word p g.waitersFlag (hvalid p)]
  refine followed_act (b := FutexLock.Action.drop) rfl (.inl rfl) hs hact rfl ?_ rfl
  refine ⟨rfl, fun _ => rfl, hg.queue, hg.waiting, by simp, ?_⟩
  -- the frame that unlocks was the only one inside
  rintro ⟨t, f', hf', hi⟩
  change f' ∈ (a.put (tid p) _ _).stack t at hf'
  by_cases ht : t = tid p
  · subst ht
    rw [State.put_stack_self, List.mem_cons] at hf'
    rcases hf' with rfl | hf'
    · exact absurd rfl hi.2
    · exact absurd (hbelow f' hf') hi.2
  · rw [State.put_stack_ne _ _ _ ht] at hf'
    exact absurd (not_inside_of_guard hvalid hr hs hbelow rfl hf' hi).1 ht

include hinj hg hs in
theorem follow_u2 (hf : Stands tid p .u2 v f) (hl : lockUnlock p q .u2 g v = some (g', v', e)) :
    Follow tid p .u2 g' v' a fs e := by
  obtain rfl := hf
  simp only [lockUnlock] at hl
  split_ifs at hl with hflag
  · rw [if_pos hflag] at hs
    have hinside := exists_inside_cons hs (not_inside_of_guards rfl)
      (not_inside_of_guards (f := ⟨.client, []⟩) rfl)
    obtain ⟨g₁, hwake, he⟩ := Option.map_eq_some_iff.mp hl
    obtain ⟨rfl, rfl, rfl⟩ : _ ∧ _ ∧ _ := by simpa using he
    simp only [futexWake] at hwake
    split_ifs at hwake with hempty
    · obtain rfl := Option.some.inj hwake
      have hqueue : a.shared.queue = ∅ := by rw [hg.queue, hempty, Finset.image_empty]
      refine followed_act (b := FutexLock.Action.wakeOne none) rfl (.inl rfl) hs (if_pos hqueue)
        rfl ?_ rfl
      exact hg.put rfl hinside hg.word hg.free hg.queue hg.waiting
    · cases q with
      | none => simp at hwake
      | some u =>
        simp only at hwake
        split_ifs at hwake with hu
        obtain rfl := Option.some.inj hwake
        have hqueue : tid u ∈ a.shared.queue := by
          rw [hg.queue]
          exact Finset.mem_image_of_mem tid hu
        refine followed_act (b := FutexLock.Action.wakeOne (some (tid u))) rfl (.inl rfl) hs
          (if_pos hqueue) rfl ?_ rfl
        refine hg.put rfl hinside hg.word hg.free ?_ ?_
        · rw [Finset.image_erase hinj, ← hg.queue]
        · intro r
          by_cases hr : r = u
          · simp [hr]
          · simp [hr, hg.waiting]
  · obtain ⟨rfl, rfl, rfl⟩ : _ ∧ _ ∧ _ := by simpa using hl
    rw [if_neg hflag] at hs
    exact followed_stay (.inl rfl) hs hg rfl (Nat.lt_succ_self _)

include hinj hvalid hr hg hs hbelow in
/-- The code follows every step of `lock_unlock`. -/
theorem follow (l : Lbl) (hf : Stands tid p l v f)
    (hl : lockUnlock p q l g v = some (g', v', e)) : Follow tid p l g' v' a fs e := by
  cases l with
  | l0 => exact follow_l0 hinj hvalid hr hg hs hbelow hf hl
  | lCnt =>
    obtain ⟨rfl, rfl, rfl⟩ : _ ∧ _ ∧ _ := by simpa [lockUnlock] using hl
    exact followed_stay (.inr rfl) hs hg hf (Nat.lt_succ_self _)
  | l1 =>
    rw [lockUnlock, if_neg hf.1.1] at hl
    obtain ⟨rfl, rfl, rfl⟩ : _ ∧ _ ∧ _ := by simpa using hl
    exact followed_stay (.inl rfl) hs hg hf (Nat.lt_succ_self _)
  | l2 => exact follow_l2 hinj hvalid hr hg hs hbelow hf hl
  | l3 =>
    obtain ⟨rfl, rfl, rfl⟩ : _ ∧ _ ∧ _ := by simpa [lockUnlock] using hl
    exact followed_stay (.inr rfl) hs hg hf (Nat.lt_succ_self _)
  | l4 => exact follow_l4 hinj hvalid hr hg hs hbelow hf hl
  | l5 =>
    obtain ⟨rfl, rfl, rfl⟩ : _ ∧ _ ∧ _ := by simpa [lockUnlock] using hl
    exact followed_stay (.inr rfl) hs hg hf (Nat.lt_succ_self _)
  | w0 => exact follow_w0 hinj hvalid hg hs hf hl
  | w1 => exact follow_w1 hinj hg hs hf hl
  | l6 =>
    obtain ⟨rfl, rfl, rfl⟩ : _ ∧ _ ∧ _ := by simpa [lockUnlock] using hl
    exact followed_stay (.inr rfl) hs hg hf (Nat.lt_succ_self _)
  | l7 =>
    obtain ⟨rfl, rfl, rfl⟩ : _ ∧ _ ∧ _ := by simpa [lockUnlock] using hl
    obtain rfl := hf
    exact follow_got (b := FutexLock.Action.load) hinj hvalid hr hg hs hbelow rfl rfl rfl
  | cs => exact follow_cs hg hs hf hl
  | u0 => exact follow_u0 hinj hvalid hr hg hs hbelow hf hl
  | u1 =>
    obtain ⟨rfl, rfl, rfl⟩ : _ ∧ _ ∧ _ := by simpa [lockUnlock] using hl
    exact followed_stay (.inr rfl) hs hg hf (Nat.lt_succ_self _)
  | u2 => exact follow_u2 hinj hg hs hf hl
  | uEnd =>
    obtain ⟨rfl, rfl, rfl⟩ : _ ∧ _ ∧ _ := by simpa [lockUnlock] using hl
    obtain rfl := hf
    refine followed_finish rfl hs rfl rfl (hg.put rfl ?_ hg.word hg.free hg.queue hg.waiting)
    change _ ↔ ∃ k ∈ a.stack (tid p), Inside k
    simp [hs, Inside]

end Labels

/-- A new thread or a handler calls `lock`. -/
theorem call_lock (hvalid : ∀ p, validTid (tid p) = true)
    (hr : Reach (FutexLock.system ()) FutexLock.noHandOut a)
    (hfs : ∀ f ∈ a.stack (tid p), ∀ t, f.pc ≠ .waiting t) :
    Reach (FutexLock.system ()) FutexLock.noHandOut
      (a.put (tid p) a.shared (⟨.rawLock (tid p), []⟩ :: a.stack (tid p))) := by
  have hlock {s : FutexLock.World Unit} {fs : List (FutexLock.Frame Unit)}
      (hs : s.stack (tid p) = ⟨.client, []⟩ :: fs) :
      (FutexLock.system ()).next s (.act (tid p) .lock) =
        some (s.put (tid p) s.shared (⟨.rawLock (tid p), []⟩ :: fs)) := next_act hs
  cases hs : a.stack (tid p) with
  | nil =>
    have hspawn : (FutexLock.system ()).next a (.spawn (tid p)) =
        some (a.put (tid p) a.shared [⟨.client, []⟩]) := by
      simp [FutexLock.system, InterruptStack.next, hs, FutexLock.program, hvalid p]
    have hr₁ := hr.step (show FutexLock.noHandOut a (.spawn (tid p)) from trivial) hspawn
    have hr₂ := hr₁.step (show FutexLock.noHandOut _ (.act (tid p) .lock) from trivial)
      (hlock (State.put_stack_self _ _ _ _))
    rwa [State.put_shared, State.put_put] at hr₂
  | cons f fs =>
    have hqueue := FutexLock.not_queued (FutexLock.queued_of_reach hr) hs (hfs f (by simp [hs]))
    have hsignal : (FutexLock.system ()).next a (.signal (tid p)) =
        some (a.put (tid p) a.shared (⟨.client, []⟩ :: f :: fs)) := by
      simp [FutexLock.system, InterruptStack.next, hs, FutexLock.program,
        Finset.erase_eq_of_notMem hqueue]
    have hr₁ := hr.step (show FutexLock.noHandOut a (.signal (tid p)) from trivial) hsignal
    have hr₂ := hr₁.step (show FutexLock.noHandOut _ (.act (tid p) .lock) from trivial)
      (hlock (State.put_stack_self _ _ _ _))
    rwa [State.put_shared, State.put_put] at hr₂

variable [DecidableEq Proc] {d n : ℤ}

theorem pc_of_resumes {l : Lbl} {v : Locals Proc} (hl : (algorithm Proc d n).Resumes l)
    (hf : Stands tid p l v f) (t : Tid) : f.pc ≠ .waiting t := by
  rcases resumes_cases hl with rfl | rfl | rfl | rfl | rfl
  · rw [hf.2]
    exact contended_ne_waiting p v t
  · rw [hf.2.2]
    exact contended_ne_waiting p v t
  · rw [hf.2.2.2]
    exact contended_ne_waiting p v t
  · rw [hf]
    simp
  · rw [hf]
    cases v.gotFlag <;> simp

/-- Where the steps of all innermost calls are blocked, every thread that is left sleeps. -/
theorem stuck_of_blocked (hinj : Function.Injective tid) (hg : Matches tid g a)
    (hblocked : ∀ t f fs, a.stack t = f :: fs →
      ∃ p l v, tid p = t ∧ Stands tid p l v f ∧
        Interrupted (algorithm Proc d n) (correspondence tid) p fs ∧
        ∀ q, lockUnlock p q l g v = none) :
    Stuck (FutexLock.system ()) FutexLock.quiet a := by
  have hwaiting {t : Tid} {f : FutexLock.Frame Unit} {fs : List (FutexLock.Frame Unit)}
      (hs : a.stack t = f :: fs) : f = ⟨.waiting t, []⟩ ∧ t ∈ a.shared.queue := by
    obtain ⟨p, l, v, rfl, hf, -, hnone⟩ := hblocked t f fs hs
    have hl := lockUnlock_eq_none hnone
    obtain ⟨rfl, hwait⟩ := hl
    refine ⟨hf, ?_⟩
    rw [hg.queue, hinj.mem_finset_image, ← hg.waiting]
    exact hwait
  intro l hl
  change InterruptStack.next (FutexLock.program Unit) a l = none
  cases l with
  | spawn t => simp [FutexLock.quiet, FutexLock.workload, Label.isSpawn] at hl
  | signal t => simp [FutexLock.quiet, FutexLock.workload, Label.isSignal] at hl
  | handOut t => simp [FutexLock.quiet, FutexLock.workload, Label.isHandOut] at hl
  | act t b =>
    cases hs : a.stack t with
    | nil => simp [InterruptStack.next, hs]
    | cons f fs =>
      obtain ⟨rfl, hq⟩ := hwaiting hs
      rw [next_act hs, Option.map_eq_none_iff]
      change FutexLock.act t b a.shared _ = none
      cases b <;> simp [FutexLock.act, hq]
      simp [FutexLock.quiet, FutexLock.genuine] at hl
  | finish t =>
    cases hs : a.stack t with
    | nil => simp [InterruptStack.next, hs]
    | cons f fs =>
      obtain ⟨rfl, hq⟩ := hwaiting hs
      simp [InterruptStack.next, hs, FutexLock.program, FutexLock.returns]

theorem simulates (hinj : Function.Injective tid) (hvalid : ∀ p, validTid (tid p) = true) :
    Simulates (algorithm Proc d n) (correspondence tid) (FutexLock.system ()) FutexLock.noHandOut
      FutexLock.quiet where
  injective := hinj
  initial := by
    refine ⟨FutexLock.new (), rfl, ⟨rfl, fun _ => rfl, rfl, by simp [algorithm], ?_⟩, fun _ => rfl⟩
    simp [algorithm, FutexLock.new, Flags]
  call p g a hr _ hg hfs := by
    refine ⟨_, _, call_lock hvalid hr fun f hf t => ?_, ?_, rfl, rfl⟩
    · obtain ⟨l, v, hl, hstands⟩ := hfs f hf
      exact pc_of_resumes hl hstands t
    · exact hg.put rfl (by simp [Inside]) hg.word hg.free hg.queue hg.waiting
  step p q l g v g' v' e f fs a hr _ hg hs hf hbelow hl := by
    refine follow hinj hvalid hr hg hs (fun k hk => ?_) l hf hl
    obtain ⟨l', v', hl', hk'⟩ := hbelow k hk
    exact guards_of_resumes hl' hk'
  allowed a ls a' hr _ hrun := by
    refine hr.run (fun s l hl => ?_) hrun.2
    cases l with
    | handOut t =>
      have hq := hrun.1 _ hl
      simp [FutexLock.quiet, FutexLock.workload, Label.isHandOut] at hq
    | _ => trivial
  ends a hr _ := FutexLock.ends_of_reach hr
  live g a hr _ hg hblocked :=
    ((FutexLock.stuck_iff_finished hr).mp (stuck_of_blocked hinj hg hblocked)).1

theorem got_of_related {s : MutexAlgorithm.State Proc Lbl (Globals Proc) (Locals Proc)}
    (h : Related (algorithm Proc d n) (correspondence tid) s a) {p : Proc}
    (hpc : (s.process p).pc = .lockUnlock .l1) : (s.process p).locals.gotTid ≠ some p := by
  have hframes := h.frames p
  simp only [Process.calls, hpc] at hframes
  obtain ⟨f, fs, hf, -, -⟩ := List.forall₂_cons_left_iff.mp hframes
  exact hf.1.1

/-- The assertion of a label holds where the code stands. -/
theorem asserts_of_related (hvalid : ∀ p, validTid (tid p) = true)
    {s : MutexAlgorithm.State Proc Lbl (Globals Proc) (Locals Proc)}
    (hr : Reach (FutexLock.system ()) FutexLock.noHandOut a)
    (h : Related (algorithm Proc d n) (correspondence tid) s a) (p : Proc) : Asserts s p := by
  have hframes := h.frames p
  unfold Asserts
  split
  · next hpc => exact fun hgot => absurd hgot (got_of_related h hpc)
  · next hpc =>
    simp only [Process.calls, hpc] at hframes
    obtain ⟨f, fs, ⟨k, rfl⟩, hfs, hs⟩ := List.forall₂_cons_left_iff.mp hframes
    have hbelow : ∀ k ∈ fs, k.guards = [] := by
      intro k hk
      obtain ⟨l, v, hl, hstands⟩ := interrupted_of_resumes hfs (h.resumes_below hpc) k hk
      exact guards_of_resumes hl hstands
    rw [Bool.eq_false_iff, ne_eq]
    intro hcs
    obtain ⟨t, f', hf', hi⟩ := h.globals.inside.mp hcs
    obtain ⟨-, rfl⟩ := not_inside_of_guard hvalid hr hs hbelow rfl hf' hi
    exact absurd hi.1 (by simp)
  · next hpc =>
    simp only [Process.calls, hpc] at hframes
    obtain ⟨f, fs, ⟨k, rfl⟩, -, hs⟩ := List.forall₂_cons_left_iff.mp hframes
    exact h.globals.inside.mpr ⟨_, _, by rw [hs]; exact List.mem_cons_self, rfl, by simp⟩
  · trivial

end Code

variable [DecidableEq Proc]

/-- Every reachable state of the algorithm is one of the code, no assertion fails, and no
process comes to the `return` for `Err(Recursive)`: signals are only taken at labels outside
of the critical section. -/
theorem futex_tla_asserts {tid : Proc → Tid} (hinj : Function.Injective tid)
    (hvalid : ∀ p, validTid (tid p) = true) {d n : ℤ}
    {s : MutexAlgorithm.State Proc Lbl (Globals Proc) (Locals Proc)}
    (h : Reach (algorithm Proc d n).system anyStep s) :
    (∃ a, Reach (FutexLock.system ()) FutexLock.noHandOut a ∧
      Related (algorithm Proc d n) (correspondence tid) s a) ∧ (∀ p, Asserts s p) ∧
      ∀ p, (s.process p).pc = .lockUnlock .l1 → (s.process p).locals.gotTid ≠ some p := by
  obtain ⟨a, hr, hrel⟩ := (simulates hinj hvalid).exists_related h
  exact ⟨⟨a, hr, hrel⟩, asserts_of_related hvalid hr hrel, fun p => got_of_related hrel⟩

/-- A step of a process that takes no signal, with the process that it wakes if any. -/
def goes (p : Bool) (woken : Option Bool) : Choice Bool := ⟨p, false, woken⟩

/-- A process is in the critical section when the handler of the other one goes to sleep. -/
def handlerSleeps : List (Choice Bool) :=
  List.replicate 3 (goes true none) ++ List.replicate 2 (goes false none) ++
    (⟨false, true, none⟩ :: List.replicate 9 (goes false none))

theorem futex_tla_asserts_handler :
    ∃ s, run (algorithm Bool 1 1).system (algorithm Bool 1 1).init handlerSleeps = some s ∧
      s.globals.waitersSet = {false} ∧ (s.process false).signalDepth = 1 ∧
      ∀ p, Asserts s p := by
  have hs : run (algorithm Bool 1 1).system (algorithm Bool 1 1).init handlerSleeps = some _ := rfl
  have hr : Reach (algorithm Bool 1 1).system anyStep _ :=
    (Reach.initial rfl).run (fun _ _ _ => trivial) hs
  have hinj : Function.Injective fun p : Bool => bif p then (1 : Tid) else 2 := by decide
  exact ⟨_, rfl, rfl, rfl, (futex_tla_asserts hinj (by decide) hr).2.1⟩

/-- `Termination`, for any bounds on the iterations and on the nesting of signals and for any
finite set of processes that have tids of their own, of which there are `2 ^ 30 - 1`. -/
theorem futex_tla_termination [Fintype Proc] {tid : Proc → Tid} (hinj : Function.Injective tid)
    (hvalid : ∀ p, validTid (tid p) = true) {d n : ℤ}
    {e : ℕ → MutexAlgorithm.State Proc Lbl (Globals Proc) (Locals Proc)}
    (he : Behavior (algorithm Proc d n).system e)
    (hfair : WeaklyFair (algorithm Proc d n).system e) :
    ∃ m, ∀ p, ((e m).process p).pc = .done :=
  (simulates hinj hvalid).eventually_done he hfair

/-- Each process takes the lock once; the second one has to wait for the first. -/
def eachOnce : List (Choice Bool) :=
  List.replicate 3 (goes true none) ++ List.replicate 9 (goes false none) ++
    List.replicate 6 (goes true (some false)) ++ List.replicate 13 (goes false none)

theorem futex_tla_termination_once :
    ∃ e, Behavior (algorithm Bool 0 1).system e ∧ WeaklyFair (algorithm Bool 0 1).system e ∧
      ∃ m, ∀ p, ((e m).process p).pc = .done := by
  have hs : run (algorithm Bool 0 1).system (algorithm Bool 0 1).init eachOnce = some _ := rfl
  obtain ⟨e, he, hfair, -⟩ := exists_behavior (M := (algorithm Bool 0 1).system) rfl hs
    (by rintro ⟨p, b, q⟩; cases p <;> rfl)
  have hinj : Function.Injective fun p : Bool => bif p then (1 : Tid) else 2 := by decide
  exact ⟨e, he, hfair, futex_tla_termination hinj (by decide) he hfair⟩

end SignalCrates.FutexTla
