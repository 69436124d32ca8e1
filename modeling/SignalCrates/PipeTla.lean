import SignalCrates.AlgorithmSimulation
import SignalCrates.PipeTermination

/-!
# pipe.tla

As for `futex.tla`, the runs are runs of the code, here of `pipe.rs` with a pipe that holds
one byte. The algorithm counts its waiters without bound; the counter of the code wraps, so
the processes and the nesting of their signals have to be few enough.
-/
namespace SignalCrates.PipeTla
open TransitionSystem InterruptStack MutexAlgorithm SignalLock Completion Fairness
  CellRefinement

inductive Lbl
  | l0
  | lPre1
  | lPre2
  | lPre3
  | lCnt
  | l2
  | l22
  | l3
  | pr0
  | l6
  | l8
  | cs
  | u0
  | u1
  | u2
  | pw0
  | uEnd

structure Globals (Proc : Type*) where
  holderTid : Option Proc
  pipeBufLen : ℤ
  waiters : ℤ
  inCriticalSection : Bool

structure Locals (Proc : Type*) where
  gotTid : Option Proc
  pendingByte : Bool

variable {Proc : Type*}

def lockUnlock [DecidableEq Proc] (self : Proc) (l : Lbl) (g : Globals Proc)
    (v : Locals Proc) : Option (Globals Proc × Locals Proc × Exit Lbl) :=
  match l with
  | .l0 =>
    if g.holderTid = none then some ({ g with holderTid := some self }, v, .goto .cs)
    else some (g, { v with gotTid := g.holderTid }, .goto .lPre1)
  | .lPre1 =>
    if v.gotTid = some self then some (g, v, .recursive) else some (g, v, .goto .lPre2)
  | .lPre2 =>
    some ({ g with waiters := g.waiters + 1 }, { v with pendingByte := true }, .goto .lPre3)
  | .lPre3 => some (g, { v with gotTid := g.holderTid }, .goto .lCnt)
  | .lCnt => some (g, v, .maybeSignal .l2)
  | .l2 =>
    if v.gotTid = none then
      if g.holderTid = v.gotTid then some ({ g with holderTid := some self }, v, .goto .l22)
      else some (g, { v with gotTid := g.holderTid }, .goto .lCnt)
    else some (g, v, .goto .l3)
  | .l22 => some ({ g with waiters := g.waiters - 1 }, v, .goto .cs)
  | .l3 => some (g, v, .maybeSignal .pr0)
  | .pr0 =>
    if 0 < g.pipeBufLen then
      some ({ g with pipeBufLen := g.pipeBufLen - 1 }, v, .goto .l6)
    else none
  | .l6 => some (g, v, .maybeSignal .l8)
  | .l8 => some (g, { v with gotTid := g.holderTid }, .goto .lCnt)
  | .cs => some ({ g with inCriticalSection := true }, v, .goto .u0)
  | .u0 =>
    some ({ g with holderTid := none, inCriticalSection := false }, { v with gotTid := none },
      .goto .u1)
  | .u1 => some (g, v, .maybeSignal .u2)
  | .u2 =>
    if 0 < g.waiters ∨ v.pendingByte = true then
      some (g, { v with pendingByte := false }, .goto .pw0)
    else some (g, v, .goto .uEnd)
  | .pw0 =>
    if g.pipeBufLen < 1 then some ({ g with pipeBufLen := g.pipeBufLen + 1 }, v, .goto .uEnd)
    else some (g, v, .goto .uEnd)
  | .uEnd => some (g, v, .uEnd)

def algorithm (Proc : Type*) [DecidableEq Proc] (maxSignalDepth maxIterations : ℤ) :
    Algorithm Proc Lbl (Globals Proc) (Locals Proc) where
  maxSignalDepth := maxSignalDepth
  maxIterations := maxIterations
  globals := ⟨none, 0, 0, false⟩
  locals := ⟨none, false⟩
  entry := .l0
  lockUnlock self _ := lockUnlock self

/-- The assertion at the label where a process stands. -/
def Asserts (s : MutexAlgorithm.State Proc Lbl (Globals Proc) (Locals Proc)) (p : Proc) : Prop :=
  match (s.process p).pc with
  | .lockUnlock .lPre1 => (s.process p).locals.gotTid = some p → 0 < (s.process p).signalDepth
  | .lockUnlock .l22 => 0 < s.globals.waiters
  | .lockUnlock .cs => s.globals.inCriticalSection = false
  | .lockUnlock .u0 => s.globals.inCriticalSection = true
  | _ => True

section Code

variable (tid : Proc → Tid)

/-- The value of `holder_tid` in the code. -/
def tidOf : Option Proc → Tid
  | none => 0
  | some p => tid p

/-- The code that goes on with a value of `holder_tid` in the loop. -/
def attempt (p : Proc) : Option Proc → PipeLock.Pc
  | none => .exchange (tid p)
  | some _ => .read (tid p)

/-- A frame inside the critical section, after `lock` has returned. -/
def Inside (f : PipeLock.Frame Unit) : Prop := f.pc = .client ∧ f.guards ≠ []

/-- The frame that a call of process `p` at a label stands for. -/
def Stands (p : Proc) (l : Lbl) (v : Locals Proc) (f : PipeLock.Frame Unit) : Prop :=
  match l with
  | .l0 => v.pendingByte = false ∧ f = ⟨.lock (tid p), []⟩
  | .lPre1 => v.gotTid ≠ some p ∧ f = ⟨.fetchAdd (tid p), []⟩
  | .lPre2 => f = ⟨.fetchAdd (tid p), []⟩
  | .lPre3 => v.pendingByte = true ∧ f = ⟨.exchange (tid p), []⟩
  | .lCnt | .l2 => v.pendingByte = true ∧ f = ⟨attempt tid p v.gotTid, []⟩
  | .l3 | .pr0 => v.pendingByte = true ∧ f = ⟨.read (tid p), []⟩
  | .l6 | .l8 => v.pendingByte = true ∧ f = ⟨.exchange (tid p), []⟩
  | .l22 => v.pendingByte = true ∧ ∃ k, k.contended = true ∧ f = ⟨.fetchSub (.ok ()), [k]⟩
  | .cs => ∃ k, k.contended = v.pendingByte ∧ f = ⟨.ret (.ok ()), [k]⟩
  | .u0 => ∃ k, k.contended = v.pendingByte ∧ f = ⟨.client, [k]⟩
  | .u1 | .u2 => f = ⟨if v.pendingByte then .write else .fenceUnlock, []⟩
  | .pw0 => f = ⟨.write, []⟩
  | .uEnd => f = ⟨.client, []⟩

structure Matches (g : Globals Proc) (a : PipeLock.World Unit) : Prop where
  holder : a.shared.holderTid = tidOf tid g.holderTid
  bytes : (a.shared.bytes : ℤ) = g.pipeBufLen
  waiters : g.waiters = total PipeLock.Frame.registered a
  inside : Flags Inside g.inCriticalSection a

/-- The steps before the next one of the code. -/
def rank : Lbl → ℕ
  | .lPre1 => 1
  | .lPre3 => 5
  | .lCnt => 4
  | .l2 => 3
  | .l3 => 1
  | .l6 => 6
  | .l8 => 5
  | .u1 => 2
  | .u2 => 1
  | _ => 0

def correspondence :
    Correspondence Proc Lbl (Globals Proc) (Locals Proc) Tid (PipeLock.Shared Unit)
      (PipeLock.Frame Unit) where
  tid := tid
  frame := Stands tid
  globals := Matches tid
  rank := rank

variable {tid} {g : Globals Proc} {a : PipeLock.World Unit} {p : Proc}
variable {f : PipeLock.Frame Unit} {fs : List (PipeLock.Frame Unit)}

theorem resumes_cases [DecidableEq Proc] {d n : ℤ} {l : Lbl}
    (hl : (algorithm Proc d n).Resumes l) : l = .l2 ∨ l = .pr0 ∨ l = .l8 ∨ l = .u2 := by
  obtain ⟨self, chosen, l₀, g, v, g', v', hl⟩ := hl
  change lockUnlock self l₀ g v = some (g', v', .maybeSignal l) at hl
  cases l₀ <;> simp only [lockUnlock] at hl <;> (try split_ifs at hl) <;> simp_all

/-- Only an empty pipe can block a step. -/
theorem lockUnlock_eq_none [DecidableEq Proc] {l : Lbl} {v : Locals Proc}
    (h : lockUnlock p l g v = none) : l = .pr0 ∧ g.pipeBufLen ≤ 0 := by
  cases l <;> simp only [lockUnlock] at h <;> (try split_ifs at h) <;> simp_all

/-- The frame of an interrupted call holds no guard, and no signal finds it in `read`. -/
theorem stands_of_resumes [DecidableEq Proc] {d n : ℤ} {l : Lbl} {v : Locals Proc}
    (hl : (algorithm Proc d n).Resumes l) (hf : Stands tid p l v f) :
    f.guards = [] ∧ f.pc.step .readEintr = none := by
  rcases resumes_cases hl with rfl | rfl | rfl | rfl
  · rw [hf.2]
    cases v.gotTid <;> exact ⟨rfl, rfl⟩
  · rw [hf.2]
    exact ⟨rfl, rfl⟩
  · rw [hf.2]
    exact ⟨rfl, rfl⟩
  · rw [hf]
    cases v.pendingByte <;> exact ⟨rfl, rfl⟩

theorem tidOf_eq_zero_iff (hvalid : ∀ p, tid p ≠ 0) (o : Option Proc) :
    tidOf tid o = 0 ↔ o = none := by
  cases o with
  | none => simp [tidOf]
  | some p => simpa [tidOf] using hvalid p

theorem Matches.holder_eq_zero_iff (hg : Matches tid g a) (hvalid : ∀ p, tid p ≠ 0) :
    a.shared.holderTid = 0 ↔ g.holderTid = none := by
  rw [hg.holder]
  exact tidOf_eq_zero_iff hvalid _

theorem not_inside_of_guards {f : PipeLock.Frame Unit} (hf : f.guards = []) : ¬ Inside f :=
  fun h => h.2 hf

/-- A step of a thread changes `waiters` by what it changes in the registered frames. -/
theorem Matches.waiters_put (hg : Matches tid g a) {t : Tid} {s : PipeLock.Shared Unit}
    {fs fs' : List (PipeLock.Frame Unit)} (hs : a.stack t = fs) {n : ℤ}
    (h : n + (fs.flatMap PipeLock.Frame.registered).length =
      g.waiters + (fs'.flatMap PipeLock.Frame.registered).length) :
    n = total PipeLock.Frame.registered (a.put t s fs') := by
  have hmass := mass_put (fun f => f.registered.length) s hs fs'
  rw [← total_eq_mass, ← total_eq_mass, ← List.length_flatMap, ← List.length_flatMap] at hmass
  have hw := hg.waiters
  omega

/-- A step of a thread that does not change which frames are inside. -/
theorem Matches.put (hg : Matches tid g a) {t : Tid} {g' : Globals Proc}
    {s : PipeLock.Shared Unit} {fs fs' : List (PipeLock.Frame Unit)} (hs : a.stack t = fs)
    (hcs : g'.inCriticalSection = g.inCriticalSection)
    (hi : (∃ k ∈ fs', Inside k) ↔ ∃ k ∈ fs, Inside k)
    (hholder : s.holderTid = tidOf tid g'.holderTid) (hbytes : (s.bytes : ℤ) = g'.pipeBufLen)
    (hwaiters : g'.waiters + (fs.flatMap PipeLock.Frame.registered).length =
      g.waiters + (fs'.flatMap PipeLock.Frame.registered).length) :
    Matches tid g' (a.put t s fs') := by
  refine ⟨hholder, hbytes, hg.waiters_put hs hwaiters, ?_⟩
  rw [hcs]
  exact hg.inside.put (by rw [hs]; exact hi)

/-- A step of the innermost frame outside of the critical section. -/
theorem Matches.frame (hg : Matches tid g a) {t : Tid} {g' : Globals Proc}
    {s : PipeLock.Shared Unit} {f' : PipeLock.Frame Unit} (hs : a.stack t = f :: fs)
    (hcs : g'.inCriticalSection = g.inCriticalSection) (hf : ¬ Inside f) (hf' : ¬ Inside f')
    (hholder : s.holderTid = tidOf tid g'.holderTid) (hbytes : (s.bytes : ℤ) = g'.pipeBufLen)
    (hwaiters : g'.waiters + f.registered.length = g.waiters + f'.registered.length) :
    Matches tid g' (a.put t s (f' :: fs)) := by
  refine hg.put hs hcs (by simp [hf, hf']) hholder hbytes ?_
  rw [List.flatMap_cons, List.flatMap_cons, List.length_append, List.length_append]
  push_cast
  omega

/-- The code follows a step at label `l` after which the variables are `g` and `v`. -/
abbrev Follow (tid : Proc → Tid) (p : Proc) (l : Lbl) (g : Globals Proc) (v : Locals Proc)
    (a : PipeLock.World Unit) (fs : List (PipeLock.Frame Unit)) (e : Exit Lbl) : Prop :=
  Followed (correspondence tid) (PipeLock.system () 1) PipeLock.quiet p l g v a fs e

theorem win_lock {t : Tid} {s : PipeLock.Shared Unit} (h : s.holderTid = 0) :
    PipeLock.act 1 t (.op (.win t) id) s ⟨.lock t, []⟩ =
      some ({ s with holderTid := t, cell := s.cell.acquire id },
        ⟨.ret (.ok ()), [⟨t, false, .enter id⟩]⟩) := by
  simp [PipeLock.act, PipeLock.Pc.step, PipeLock.Shared.step, h, PipeLock.Pc.contended]

theorem win_exchange {t : Tid} {s : PipeLock.Shared Unit} (h : s.holderTid = 0) :
    PipeLock.act 1 t (.op (.win t) id) s ⟨.exchange t, []⟩ =
      some ({ s with holderTid := t, cell := s.cell.acquire id },
        ⟨.fetchSub (.ok ()), [⟨t, true, .enter id⟩]⟩) := by
  simp [PipeLock.act, PipeLock.Pc.step, PipeLock.Shared.step, h, PipeLock.Pc.contended]

theorem lose_lock {t : Tid} {s : PipeLock.Shared Unit} (h : s.holderTid ≠ t) :
    PipeLock.act 1 t (.op (.lose s.holderTid) id) s ⟨.lock t, []⟩ =
      some (s, ⟨.fetchAdd t, []⟩) := by
  simp [PipeLock.act, PipeLock.Pc.step, PipeLock.Shared.step, PipeLock.lockContended, h]

theorem lose_exchange {t : Tid} {s : PipeLock.Shared Unit} (h : s.holderTid ≠ t)
    (h0 : s.holderTid ≠ 0) :
    PipeLock.act 1 t (.op (.lose s.holderTid) id) s ⟨.exchange t, []⟩ =
      some (s, ⟨.read t, []⟩) := by
  simpa [PipeLock.act, PipeLock.Pc.step, PipeLock.Shared.step, PipeLock.retry, h] using h0

theorem quiet_lose (t : Tid) {found : Tid} (h : found ≠ 0) :
    PipeLock.quiet (.act t (.op (.lose found) id) : Label Tid (PipeLock.Action Unit)) = true := by
  have hgen : PipeLock.genuine
      (.act t (.op (.lose found) id) : Label Tid (PipeLock.Action Unit)) = true := decide_eq_true h
  rw [PipeLock.quiet, hgen]
  rfl

variable (hinj : Function.Injective tid) (hvalid : ∀ p, tid p ≠ 0)
variable (hr : Reach (PipeLock.system () 1) PipeLock.orderly a) (hg : Matches tid g a)
variable (hs : a.stack (tid p) = f :: fs) (hbelow : ∀ k ∈ fs, k.guards = [])

include hvalid hr hg hs hbelow in
/-- The tid that a frame without a guard reads is not its own. -/
theorem foreign_got (hf : f.guards = []) :
    g.holderTid ≠ some p ∧ a.shared.holderTid ≠ tid p := by
  have hne : a.shared.holderTid ≠ tid p := by
    intro he
    refine (PipeLock.holderTid_eq_iff hr (hvalid p)).mp he ?_
    rw [PipeLock.guards, live, hs, List.flatMap_cons, hf, List.nil_append,
      List.flatMap_eq_nil_iff]
    exact hbelow
  refine ⟨fun hp => hne ?_, hne⟩
  rw [hg.holder, hp]
  rfl

include hvalid hr hg hs hbelow in
/-- A load or a failed exchange reads `holder_tid` into the local variable. -/
theorem follow_got {l : Lbl} {v : Locals Proc} (hv : v.pendingByte = true)
    (hf : f = ⟨.exchange (tid p), []⟩) (hrank : g.holderTid = none → rank .lCnt < rank l) :
    Follow tid p l g { v with gotTid := g.holderTid } a fs (.goto .lCnt) := by
  obtain rfl := hf
  have hne := (foreign_got hvalid hr hg hs hbelow rfl).2
  cases hh : g.holderTid with
  | none => exact followed_stay (.inl rfl) hs hg ⟨hv, rfl⟩ (hrank hh)
  | some q =>
    have h0 : a.shared.holderTid ≠ 0 := by
      rw [ne_eq, hg.holder_eq_zero_iff hvalid, hh]
      simp
    refine followed_act rfl (.inl rfl) hs (lose_exchange hne h0) (quiet_lose _ h0) ?_ ⟨hv, rfl⟩
    exact hg.frame hs rfl (not_inside_of_guards rfl) (not_inside_of_guards rfl) hg.holder
      hg.bytes rfl

include hr hs hbelow in
/-- While a frame holds a guard, no other frame is inside the critical section. -/
theorem not_inside_of_guard {k : PipeLock.PipeLockGuard Unit} (hf : f.guards = [k]) {t : Tid}
    {f' : PipeLock.Frame Unit} (hf' : f' ∈ a.stack t) (hi : Inside f') : t = tid p ∧ f' = f := by
  have hholder : a.shared.holderTid = tid p := (PipeLock.of_guard hr hs hf).2
  have hother : PipeLock.guards a t ≠ [] := by
    intro he
    rw [PipeLock.guards, live, List.flatMap_eq_nil_iff] at he
    exact hi.2 (he f' hf')
  obtain ⟨o, hR⟩ := represented (PipeLock.refines () 1 PipeLock.orderly) hr
  have htid : t = tid p := (hR.heldBy hother).2.symm.trans hholder
  refine ⟨htid, ?_⟩
  rw [htid, hs] at hf'
  rcases List.mem_cons.mp hf' with rfl | hmem
  · rfl
  · exact absurd (hbelow f' hmem) hi.2

include hr hg in
/-- The load of `waiters` sees a waiter when the algorithm counts one. -/
theorem load_waiters (hfew : total PipeLock.Frame.registered a < 2 ^ 32) :
    0 < a.shared.waiters ↔ 0 < g.waiters := by
  have hload := PipeLock.waiters_eq_total hr
  have hw := hg.waiters
  have hzero : (0 : BitVec 32).toNat = 0 := rfl
  rw [hload, BitVec.lt_def, hzero, BitVec.toNat_ofNat, Nat.mod_eq_of_lt hfew]
  omega

section Labels

variable [DecidableEq Proc] {v v' : Locals Proc} {g' : Globals Proc} {e : Exit Lbl}

include hvalid hr hg hs hbelow in
theorem follow_l0 (hf : Stands tid p .l0 v f) (hl : lockUnlock p .l0 g v = some (g', v', e)) :
    Follow tid p .l0 g' v' a fs e := by
  obtain ⟨hv, rfl⟩ := hf
  simp only [lockUnlock] at hl
  split_ifs at hl with hc <;> obtain ⟨rfl, rfl, rfl⟩ : _ ∧ _ ∧ _ := by simpa using hl
  · refine followed_act (b := .op (.win (tid p)) id) rfl (.inl rfl) hs
      (win_lock ((hg.holder_eq_zero_iff hvalid).mpr hc)) rfl ?_ ⟨_, hv.symm, rfl⟩
    refine hg.frame hs rfl (not_inside_of_guards rfl) ?_ rfl hg.bytes rfl
    rintro ⟨⟨⟩, -⟩
  · obtain ⟨hp, hne⟩ := foreign_got hvalid hr hg hs hbelow rfl
    have h0 : a.shared.holderTid ≠ 0 := hc ∘ (hg.holder_eq_zero_iff hvalid).mp
    refine followed_act rfl (.inl rfl) hs (lose_lock hne) (quiet_lose _ h0) ?_ ⟨hp, rfl⟩
    exact hg.frame hs rfl (not_inside_of_guards rfl) (not_inside_of_guards rfl) hg.holder
      hg.bytes rfl

include hg hs in
theorem follow_lPre2 (hf : Stands tid p .lPre2 v f)
    (hl : lockUnlock p .lPre2 g v = some (g', v', e)) : Follow tid p .lPre2 g' v' a fs e := by
  obtain rfl := hf
  obtain ⟨rfl, rfl, rfl⟩ : _ ∧ _ ∧ _ := by simpa [lockUnlock] using hl
  refine followed_acts (k := ⟨.exchange (tid p), []⟩) rfl [.op .fetchAdd id, .op .fence id]
    (.inl rfl) hs rfl ?_ ?_ ⟨rfl, rfl⟩ (by simp)
  · intro b hb
    rcases List.mem_pair.mp hb with rfl | rfl <;> rfl
  · refine hg.frame hs rfl (not_inside_of_guards rfl) (not_inside_of_guards rfl) hg.holder
      hg.bytes ?_
    simp [PipeLock.Frame.registered, PipeLock.Pc.registered]

include hvalid hr hg hs hbelow in
theorem follow_l2 (hf : Stands tid p .l2 v f) (hl : lockUnlock p .l2 g v = some (g', v', e)) :
    Follow tid p .l2 g' v' a fs e := by
  obtain ⟨hv, rfl⟩ := hf
  simp only [lockUnlock] at hl
  split_ifs at hl with hnone hc <;> obtain ⟨rfl, rfl, rfl⟩ : _ ∧ _ ∧ _ := by simpa using hl
  · rw [hnone] at hs hc
    refine followed_act (b := .op (.win (tid p)) id) rfl (.inl rfl) hs
      (win_exchange ((hg.holder_eq_zero_iff hvalid).mpr hc)) rfl ?_ ⟨hv, _, rfl, rfl⟩
    refine hg.frame hs rfl (not_inside_of_guards rfl) ?_ rfl hg.bytes rfl
    rintro ⟨⟨⟩, -⟩
  · rw [hnone] at hs hc
    exact follow_got hvalid hr hg hs hbelow hv rfl fun hh => absurd hh hc
  · obtain ⟨q, hq⟩ := Option.ne_none_iff_exists'.mp hnone
    exact followed_stay (.inl rfl) hs hg ⟨hv, by rw [hq]; rfl⟩
      (show rank .l3 < rank .l2 by decide)

include hg hs in
theorem follow_l22 (hf : Stands tid p .l22 v f) (hl : lockUnlock p .l22 g v = some (g', v', e)) :
    Follow tid p .l22 g' v' a fs e := by
  obtain ⟨hv, k, hk, rfl⟩ := hf
  obtain ⟨rfl, rfl, rfl⟩ : _ ∧ _ ∧ _ := by simpa [lockUnlock] using hl
  refine followed_act (b := .op .fetchSub id) rfl (.inl rfl) hs rfl rfl ?_
    ⟨k, hk.trans hv.symm, rfl⟩
  refine hg.frame hs rfl ?_ ?_ hg.holder hg.bytes ?_
  · rintro ⟨⟨⟩, -⟩
  · rintro ⟨⟨⟩, -⟩
  · simp [PipeLock.Frame.registered, PipeLock.Pc.registered]

include hg hs in
theorem follow_pr0 (hf : Stands tid p .pr0 v f) (hl : lockUnlock p .pr0 g v = some (g', v', e)) :
    Follow tid p .pr0 g' v' a fs e := by
  obtain ⟨hv, rfl⟩ := hf
  simp only [lockUnlock] at hl
  split_ifs at hl with hc
  obtain ⟨rfl, rfl, rfl⟩ : _ ∧ _ ∧ _ := by simpa using hl
  have hbytes : 0 < a.shared.bytes := by
    have := hg.bytes
    omega
  refine followed_acts (s := { a.shared with bytes := a.shared.bytes - 1 })
    (k := ⟨.exchange (tid p), []⟩) rfl [.op .enterRead id, .op .read id] (.inl rfl) hs ?_ ?_ ?_
    ⟨hv, rfl⟩ (by simp)
  · simp [acts, PipeLock.program, PipeLock.act, PipeLock.Pc.step,
      PipeLock.Shared.step, hbytes]
  · intro b hb
    rcases List.mem_pair.mp hb with rfl | rfl <;> rfl
  · refine hg.frame hs rfl (not_inside_of_guards rfl) (not_inside_of_guards rfl) hg.holder ?_ rfl
    have := hg.bytes
    simp only
    omega

include hg hs in
theorem follow_cs (hf : Stands tid p .cs v f) (hl : lockUnlock p .cs g v = some (g', v', e)) :
    Follow tid p .cs g' v' a fs e := by
  obtain ⟨k, hk, rfl⟩ := hf
  obtain ⟨rfl, rfl, rfl⟩ : _ ∧ _ ∧ _ := by simpa [lockUnlock] using hl
  refine followed_act (b := .ret) rfl (.inl rfl) hs rfl rfl ?_ ⟨k, hk, rfl⟩
  refine ⟨hg.holder, hg.bytes, hg.waiters_put hs rfl, fun _ => ?_, fun _ => rfl⟩
  exact ⟨tid p, ⟨.client, [k]⟩, by simp [correspondence], rfl, by simp⟩

include hr hg hs hbelow in
theorem follow_u0 (hf : Stands tid p .u0 v f) (hl : lockUnlock p .u0 g v = some (g', v', e)) :
    Follow tid p .u0 g' v' a fs e := by
  obtain ⟨k, hk, rfl⟩ := hf
  obtain ⟨rfl, rfl, rfl⟩ : _ ∧ _ ∧ _ := by simpa [lockUnlock] using hl
  obtain ⟨htid, hholder⟩ := PipeLock.of_guard hr hs rfl
  have hact : PipeLock.act 1 (tid p) .drop a.shared ⟨.client, [k]⟩ =
      some ({ a.shared with holderTid := 0 },
        ⟨if v.pendingByte then .write else .fenceUnlock, []⟩) := by
    simp [PipeLock.act, PipeLock.Shared.step, PipeLock.unlock, htid, hholder, hk]
  refine followed_act (b := .drop) rfl (.inl rfl) hs hact rfl ?_ rfl
  refine ⟨rfl, hg.bytes, hg.waiters_put hs ?_, by simp, ?_⟩
  · cases v.pendingByte <;> rfl
  -- the frame that unlocks was the only one inside
  · rintro ⟨t, f', hf', hi⟩
    change f' ∈ (a.put (tid p) _ _).stack t at hf'
    by_cases ht : t = tid p
    · subst ht
      rw [State.put_stack_self, List.mem_cons] at hf'
      rcases hf' with rfl | hf'
      · exact absurd rfl hi.2
      · exact absurd (hbelow f' hf') hi.2
    · rw [State.put_stack_ne _ _ _ ht] at hf'
      exact absurd (not_inside_of_guard hr hs hbelow rfl hf' hi).1 ht

include hr hg hs in
theorem follow_u2 (hfew : total PipeLock.Frame.registered a < 2 ^ 32) (hf : Stands tid p .u2 v f)
    (hl : lockUnlock p .u2 g v = some (g', v', e)) : Follow tid p .u2 g' v' a fs e := by
  obtain rfl := hf
  simp only [lockUnlock] at hl
  have hframe {pc : PipeLock.Pc} (hpc : pc = .write ∨ pc = .client)
      (hpending : v.pendingByte = false) :
      Matches tid g (a.put (tid p) a.shared (⟨pc, []⟩ :: fs)) := by
    refine hg.frame hs rfl (not_inside_of_guards rfl) (not_inside_of_guards rfl) hg.holder
      hg.bytes ?_
    rw [hpending]
    rcases hpc with rfl | rfl <;> rfl
  have hacts (hpending : v.pendingByte = false) : acts (PipeLock.program Unit 1) (tid p)
      [.op .fence id, .op (.load a.shared.waiters) id] a.shared
        ⟨if v.pendingByte then .write else .fenceUnlock, []⟩ =
      some (a.shared, ⟨if 0 < g.waiters then .write else .client, []⟩) := by
    simp only [← load_waiters hr hg hfew, hpending]
    simp [acts, PipeLock.program, PipeLock.act, PipeLock.Pc.step, PipeLock.Shared.step]
  have hquiet : ∀ b ∈ [PipeLock.Action.op .fence id, .op (.load a.shared.waiters) id],
      PipeLock.quiet (.act (tid p) b : Label Tid (PipeLock.Action Unit)) = true := by
    intro b hb
    rcases List.mem_pair.mp hb with rfl | rfl <;> rfl
  split_ifs at hl with hc <;> obtain ⟨rfl, rfl, rfl⟩ : _ ∧ _ ∧ _ := by simpa using hl
  · cases hpending : v.pendingByte with
    | true =>
      rw [hpending] at hs
      exact followed_stay (.inl rfl) hs hg rfl (Nat.lt_succ_self _)
    | false =>
      have hpos : 0 < g.waiters := hc.resolve_right (by simp [hpending])
      refine followed_acts rfl _ (.inl rfl) hs (hacts hpending) hquiet ?_ ?_ (by simp)
      · rw [if_pos hpos]
        exact hframe (.inl rfl) hpending
      · rw [if_pos hpos]
        rfl
  · obtain ⟨hpos, hpending⟩ := not_or.mp hc
    have hfalse : v.pendingByte = false := by simpa using hpending
    refine followed_acts rfl _ (.inl rfl) hs (hacts hfalse) hquiet ?_ ?_ (by simp)
    · rw [if_neg hpos]
      exact hframe (.inr rfl) hfalse
    · rw [if_neg hpos]
      rfl

include hg hs in
theorem follow_pw0 (hf : Stands tid p .pw0 v f) (hl : lockUnlock p .pw0 g v = some (g', v', e)) :
    Follow tid p .pw0 g' v' a fs e := by
  obtain rfl := hf
  have hbytes := hg.bytes
  simp only [lockUnlock] at hl
  split_ifs at hl with hc <;> obtain ⟨rfl, rfl, rfl⟩ : _ ∧ _ ∧ _ := by simpa using hl
  · have hact : PipeLock.act 1 (tid p) (.op .write id) a.shared ⟨.write, []⟩ =
        some ({ a.shared with bytes := a.shared.bytes + 1 }, ⟨.client, []⟩) := by
      have hroom : a.shared.bytes < 1 := by omega
      simp [PipeLock.act, PipeLock.Pc.step, PipeLock.Shared.step, hroom]
    refine followed_act (b := .op .write id) rfl (.inl rfl) hs hact rfl ?_ rfl
    refine hg.frame hs rfl (not_inside_of_guards rfl) (not_inside_of_guards rfl) hg.holder ?_ rfl
    push_cast
    omega
  · have hact : PipeLock.act 1 (tid p) (.op .write id) a.shared ⟨.write, []⟩ =
        some (a.shared, ⟨.client, []⟩) := by
      have hfull : ¬ a.shared.bytes < 1 := by omega
      simp [PipeLock.act, PipeLock.Pc.step, PipeLock.Shared.step, hfull]
    refine followed_act (b := .op .write id) rfl (.inl rfl) hs hact rfl ?_ rfl
    exact hg.frame hs rfl (not_inside_of_guards rfl) (not_inside_of_guards rfl) hg.holder hbytes rfl

include hvalid hr hg hs hbelow in
/-- The code follows every step of `lock_unlock`. -/
theorem follow (hfew : total PipeLock.Frame.registered a < 2 ^ 32) (l : Lbl)
    (hf : Stands tid p l v f) (hl : lockUnlock p l g v = some (g', v', e)) :
    Follow tid p l g' v' a fs e := by
  cases l with
  | l0 => exact follow_l0 hvalid hr hg hs hbelow hf hl
  | lPre1 =>
    rw [lockUnlock, if_neg hf.1] at hl
    obtain ⟨rfl, rfl, rfl⟩ : _ ∧ _ ∧ _ := by simpa using hl
    exact followed_stay (.inl rfl) hs hg hf.2 (Nat.lt_succ_self _)
  | lPre2 => exact follow_lPre2 hg hs hf hl
  | lPre3 =>
    obtain ⟨rfl, rfl, rfl⟩ : _ ∧ _ ∧ _ := by simpa [lockUnlock] using hl
    exact follow_got hvalid hr hg hs hbelow hf.1 hf.2 fun _ => Nat.lt_succ_self _
  | lCnt =>
    obtain ⟨rfl, rfl, rfl⟩ : _ ∧ _ ∧ _ := by simpa [lockUnlock] using hl
    exact followed_stay (.inr rfl) hs hg hf (Nat.lt_succ_self _)
  | l2 => exact follow_l2 hvalid hr hg hs hbelow hf hl
  | l22 => exact follow_l22 hg hs hf hl
  | l3 =>
    obtain ⟨rfl, rfl, rfl⟩ : _ ∧ _ ∧ _ := by simpa [lockUnlock] using hl
    exact followed_stay (.inr rfl) hs hg hf (Nat.lt_succ_self _)
  | pr0 => exact follow_pr0 hg hs hf hl
  | l6 =>
    obtain ⟨rfl, rfl, rfl⟩ : _ ∧ _ ∧ _ := by simpa [lockUnlock] using hl
    exact followed_stay (.inr rfl) hs hg hf (Nat.lt_succ_self _)
  | l8 =>
    obtain ⟨rfl, rfl, rfl⟩ : _ ∧ _ ∧ _ := by simpa [lockUnlock] using hl
    exact follow_got hvalid hr hg hs hbelow hf.1 hf.2 fun _ => Nat.lt_succ_self _
  | cs => exact follow_cs hg hs hf hl
  | u0 => exact follow_u0 hr hg hs hbelow hf hl
  | u1 =>
    obtain ⟨rfl, rfl, rfl⟩ : _ ∧ _ ∧ _ := by simpa [lockUnlock] using hl
    exact followed_stay (.inr rfl) hs hg hf (Nat.lt_succ_self _)
  | u2 => exact follow_u2 hr hg hs hfew hf hl
  | pw0 => exact follow_pw0 hg hs hf hl
  | uEnd =>
    obtain ⟨rfl, rfl, rfl⟩ : _ ∧ _ ∧ _ := by simpa [lockUnlock] using hl
    obtain rfl := hf
    exact followed_finish rfl hs rfl rfl
      (hg.put hs rfl (by simp [Inside]) hg.holder hg.bytes rfl)

end Labels

/-- A new thread or a handler calls `lock`. -/
theorem call_lock (hvalid : ∀ p, tid p ≠ 0)
    (hr : Reach (PipeLock.system () 1) PipeLock.orderly a) (hg : Matches tid g a)
    (hfew : total PipeLock.Frame.registered a < 2 ^ 32)
    (hfs : ∀ f ∈ a.stack (tid p), f.pc.step .readEintr = none) :
    Reach (PipeLock.system () 1) PipeLock.orderly
      (a.put (tid p) a.shared (⟨.lock (tid p), []⟩ :: a.stack (tid p))) := by
  obtain ⟨l, hl, hnext⟩ : ∃ l, PipeLock.noHandOut a l ∧ (PipeLock.system () 1).next a l =
      some (a.put (tid p) a.shared (⟨.client, []⟩ :: a.stack (tid p))) := by
    cases hs : a.stack (tid p) with
    | nil =>
      refine ⟨.spawn (tid p), trivial, ?_⟩
      simpa [PipeLock.system, InterruptStack.next, hs, PipeLock.program, PipeLock.validTid]
        using hvalid p
    | cons f fs =>
      refine ⟨.signal (tid p), trivial, ?_⟩
      simp [PipeLock.system, InterruptStack.next, hs, PipeLock.program, hfs f (by simp [hs])]
  have hr₁ := hr.step ⟨hl, hfew⟩ hnext
  have hg₁ : Matches tid g (a.put (tid p) a.shared (⟨.client, []⟩ :: a.stack (tid p))) :=
    hg.put rfl rfl (by simp [Inside]) hg.holder hg.bytes rfl
  have hsame := hg₁.waiters.symm.trans hg.waiters
  have hfew₁ : total PipeLock.Frame.registered
      (a.put (tid p) a.shared (⟨.client, []⟩ :: a.stack (tid p))) < 2 ^ 32 := by
    omega
  refine hr₁.step (show PipeLock.orderly _ (.act (tid p) .lock) from ⟨trivial, hfew₁⟩) ?_
  refine (next_act (State.put_stack_self _ _ _ _)).trans ?_
  rw [State.put_shared]
  exact congrArg some (State.put_put _ _ _ _ _ _)

variable [DecidableEq Proc] {d n : ℤ}

/-- Every frame reads from the empty pipe or is interrupted, so nobody owes a byte. -/
theorem empty_of_blocked (hr : Reach (PipeLock.system () 1) PipeLock.orderly a)
    (hg : Matches tid g a)
    (hblocked : ∀ t f fs, a.stack t = f :: fs →
      ∃ p l v, tid p = t ∧ Stands tid p l v f ∧
        Interrupted (algorithm Proc d n) (correspondence tid) p fs ∧
        ∀ _ : Option Proc, lockUnlock p l g v = none) (t : Tid) : a.stack t = [] := by
  have hreads {t : Tid} {f : PipeLock.Frame Unit} {fs : List (PipeLock.Frame Unit)}
      (hs : a.stack t = f :: fs) :
      f.Blocks ∧ g.pipeBufLen ≤ 0 ∧ PipeLock.guards a t = [] := by
    obtain ⟨p, l, v, rfl, hf, hbelow, hnone⟩ := hblocked t f fs hs
    obtain ⟨rfl, hempty⟩ := lockUnlock_eq_none (hnone none)
    obtain ⟨-, rfl⟩ := hf
    refine ⟨trivial, hempty, ?_⟩
    rw [PipeLock.guards, live, hs, List.flatMap_cons, List.nil_append, List.flatMap_eq_nil_iff]
    intro k hk
    obtain ⟨l, v, hl, hk⟩ := hbelow k hk
    exact (stands_of_resumes hl hk).1
  by_contra hne
  obtain ⟨f, fs, hs⟩ := List.exists_cons_of_ne_nil hne
  have hduty := PipeLock.duty_of_reach le_rfl (hr.mono fun _ _ h => h.2)
  rcases hduty ⟨t, f, by simp [hs], (hreads hs).1⟩ with hb | ⟨u, hu⟩ | ⟨u, hu⟩
  · have hbytes := hg.bytes
    have hempty := (hreads hs).2.1
    omega
  · cases hsu : a.stack u with
    | nil => exact hu (by rw [PipeLock.guards, live, hsu]; rfl)
    | cons k ks => exact hu (hreads hsu).2.2
  · cases hsu : a.stack u with
    | nil =>
      rw [hsu] at hu
      exact hu
    | cons k ks => exact hu.not_readsNext ⟨k, ks, hsu, (hreads hsu).1⟩

/-- The processes with their handlers are too few to wrap `waiters`. -/
theorem total_lt [Fintype Proc] (hfew : Fintype.card Proc * (d.toNat + 1) < 2 ^ 32)
    (h : Fits (algorithm Proc d n) (correspondence tid) a) :
    total PipeLock.Frame.registered a < 2 ^ 32 ∧ mass PipeLock.Frame.calls a < 2 ^ 32 := by
  have hcalls : mass PipeLock.Frame.calls a ≤ Fintype.card Proc * (d.toNat + 1) := by
    refine h.mass_le fun f => ?_
    obtain ⟨pc, gs⟩ := f
    cases pc <;> simp [PipeLock.Frame.calls, PipeLock.Pc.calls]
  have hle := PipeLock.total_registered_le a
  omega

theorem simulates [Fintype Proc] (hinj : Function.Injective tid) (hvalid : ∀ p, tid p ≠ 0)
    (hfew : Fintype.card Proc * (d.toNat + 1) < 2 ^ 32) :
    Simulates (algorithm Proc d n) (correspondence tid) (PipeLock.system () 1) PipeLock.orderly
      PipeLock.quiet where
  injective := hinj
  initial := by
    refine ⟨PipeLock.new () 0, ⟨0, rfl⟩, ⟨rfl, rfl, ?_, ?_⟩, fun _ => rfl⟩
    · rw [PipeLock.total_new]
      rfl
    · simp [algorithm, PipeLock.new, Flags]
  call p g a hr hfits hg hfs := by
    refine ⟨_, _, call_lock hvalid hr hg (total_lt hfew hfits).1 fun f hf => ?_, ?_, rfl, rfl, rfl⟩
    · obtain ⟨l, v, hl, hstands⟩ := hfs f hf
      exact (stands_of_resumes hl hstands).2
    · exact hg.put rfl rfl (by simp [Inside]) hg.holder hg.bytes rfl
  step p q l g v g' v' e f fs a hr hfits hg hs hf hbelow hl := by
    refine follow hvalid hr hg hs (fun k hk => ?_) (total_lt hfew hfits).1 l hf hl
    obtain ⟨l', v', hl', hk'⟩ := hbelow k hk
    exact (stands_of_resumes hl' hk').1
  allowed a ls a' hr hfits hrun := by
    obtain ⟨hquiet, hrun⟩ := hrun
    have hlocks : PipeLock.locks ls = 0 := by
      rw [PipeLock.locks, List.countP_eq_zero]
      intro l hl
      have hq := hquiet l hl
      cases l <;> simp_all [PipeLock.quiet, PipeLock.workload, Label.isAct]
    refine (PipeLock.reach_orderly hr ?_ ?_ hrun).1
    · rw [hlocks]
      exact (total_lt hfew hfits).2
    · rw [List.all_eq_true]
      intro l hl
      have hq := hquiet l hl
      simp only [PipeLock.quiet, PipeLock.workload, Bool.and_eq_true, Bool.not_eq_true',
        Bool.or_eq_false_iff] at hq
      rw [hq.1.2.1.2]
      rfl
  ends a hr hfits := PipeLock.ends_of_reach hr (total_lt hfew hfits).2
  live g a hr _ hg hblocked := empty_of_blocked hr hg hblocked

theorem got_of_related {s : MutexAlgorithm.State Proc Lbl (Globals Proc) (Locals Proc)}
    (h : Related (algorithm Proc d n) (correspondence tid) s a) {p : Proc}
    (hpc : (s.process p).pc = .lockUnlock .lPre1) : (s.process p).locals.gotTid ≠ some p := by
  have hframes := h.frames p
  simp only [Process.calls, hpc] at hframes
  obtain ⟨f, fs, hf, -, -⟩ := List.forall₂_cons_left_iff.mp hframes
  exact hf.1

/-- The assertion of a label holds where the code stands. -/
theorem asserts_of_related {s : MutexAlgorithm.State Proc Lbl (Globals Proc) (Locals Proc)}
    (hr : Reach (PipeLock.system () 1) PipeLock.orderly a)
    (h : Related (algorithm Proc d n) (correspondence tid) s a) (p : Proc) : Asserts s p := by
  have hframes := h.frames p
  unfold Asserts
  split
  · next hpc => exact fun hgot => absurd hgot (got_of_related h hpc)
  · next hpc =>
    simp only [Process.calls, hpc] at hframes
    obtain ⟨f, fs, ⟨-, k, -, rfl⟩, -, hs⟩ := List.forall₂_cons_left_iff.mp hframes
    have hone := length_le_total PipeLock.Frame.registered a (tid p)
    change a.stack (tid p) = _ at hs
    rw [live, hs] at hone
    have hw := h.globals.waiters
    have hpos : 1 ≤ total PipeLock.Frame.registered a := by
      refine le_trans ?_ hone
      simp [PipeLock.Frame.registered, PipeLock.Pc.registered]
    omega
  · next hpc =>
    simp only [Process.calls, hpc] at hframes
    obtain ⟨f, fs, ⟨k, -, rfl⟩, hfs, hs⟩ := List.forall₂_cons_left_iff.mp hframes
    have hbelow : ∀ k ∈ fs, k.guards = [] := by
      intro k hk
      obtain ⟨l, v, hl, hstands⟩ := interrupted_of_resumes hfs (h.resumes_below hpc) k hk
      exact (stands_of_resumes hl hstands).1
    rw [Bool.eq_false_iff, ne_eq]
    intro hcs
    obtain ⟨t, f', hf', hi⟩ := h.globals.inside.mp hcs
    obtain ⟨-, rfl⟩ := not_inside_of_guard hr hs hbelow rfl hf' hi
    exact absurd hi.1 (by simp)
  · next hpc =>
    simp only [Process.calls, hpc] at hframes
    obtain ⟨f, fs, ⟨k, -, rfl⟩, -, hs⟩ := List.forall₂_cons_left_iff.mp hframes
    exact h.globals.inside.mpr ⟨_, _, by rw [hs]; exact List.mem_cons_self, rfl, by simp⟩
  · trivial

end Code

section Results

variable [DecidableEq Proc] [Fintype Proc]

/-- Every reachable state of the algorithm is one of the code, no assertion fails, and no
process comes to the `return` for `Err(Recursive)`. -/
theorem pipe_tla_asserts {tid : Proc → Tid} (hinj : Function.Injective tid)
    (hvalid : ∀ p, tid p ≠ 0) {d n : ℤ} (hfew : Fintype.card Proc * (d.toNat + 1) < 2 ^ 32)
    {s : MutexAlgorithm.State Proc Lbl (Globals Proc) (Locals Proc)}
    (h : Reach (algorithm Proc d n).system anyStep s) :
    (∃ a, Reach (PipeLock.system () 1) PipeLock.orderly a ∧
      Related (algorithm Proc d n) (correspondence tid) s a) ∧ (∀ p, Asserts s p) ∧
      ∀ p, (s.process p).pc = .lockUnlock .lPre1 → (s.process p).locals.gotTid ≠ some p := by
  obtain ⟨a, hr, hrel⟩ := (simulates hinj hvalid hfew).exists_related h
  exact ⟨⟨a, hr, hrel⟩, asserts_of_related hr hrel, fun p => got_of_related hrel⟩

/-- A process is in the critical section when the handler of the other one comes to wait. -/
def handlerWaits : List (Choice Bool) :=
  List.replicate 3 ⟨true, false, none⟩ ++ List.replicate 5 ⟨false, false, none⟩ ++
    (⟨false, true, none⟩ :: List.replicate 8 ⟨false, false, none⟩)

theorem pipe_tla_asserts_handler :
    ∃ s, run (algorithm Bool 1 1).system (algorithm Bool 1 1).init handlerWaits = some s ∧
      s.globals.waiters = 2 ∧ (s.process false).signalDepth = 1 ∧ ∀ p, Asserts s p := by
  have hs : run (algorithm Bool 1 1).system (algorithm Bool 1 1).init handlerWaits = some _ := rfl
  have hr : Reach (algorithm Bool 1 1).system anyStep _ :=
    (Reach.initial rfl).run (fun _ _ _ => trivial) hs
  have hinj : Function.Injective fun p : Bool => bif p then (1 : Tid) else 2 := by decide
  refine ⟨_, rfl, rfl, rfl, ?_⟩
  exact (pipe_tla_asserts hinj (by decide) (by decide) hr).2.1

/-- `Termination`, for any finite set of processes and any bounds on the iterations and on
the nesting of signals, as long as the counter of the code cannot wrap. -/
theorem pipe_tla_termination {tid : Proc → Tid} (hinj : Function.Injective tid)
    (hvalid : ∀ p, tid p ≠ 0) {d n : ℤ} (hfew : Fintype.card Proc * (d.toNat + 1) < 2 ^ 32)
    {e : ℕ → MutexAlgorithm.State Proc Lbl (Globals Proc) (Locals Proc)}
    (he : Behavior (algorithm Proc d n).system e)
    (hfair : WeaklyFair (algorithm Proc d n).system e) :
    ∃ m, ∀ p, ((e m).process p).pc = .done :=
  (simulates hinj hvalid hfew).eventually_done he hfair

/-- Each process takes the lock once; the second one has to wait for the first. -/
def eachOnce : List (Choice Bool) :=
  List.replicate 3 ⟨true, false, none⟩ ++ List.replicate 8 ⟨false, false, none⟩ ++
    List.replicate 7 ⟨true, false, none⟩ ++ List.replicate 14 ⟨false, false, none⟩

theorem pipe_tla_termination_once :
    ∃ e, Behavior (algorithm Bool 0 1).system e ∧ WeaklyFair (algorithm Bool 0 1).system e ∧
      ∃ m, ∀ p, ((e m).process p).pc = .done := by
  have hs : run (algorithm Bool 0 1).system (algorithm Bool 0 1).init eachOnce = some _ := rfl
  obtain ⟨e, he, hfair, -⟩ := exists_behavior (M := (algorithm Bool 0 1).system) rfl hs
    (by rintro ⟨p, b, q⟩; cases p <;> rfl)
  have hinj : Function.Injective fun p : Bool => bif p then (1 : Tid) else 2 := by decide
  refine ⟨e, he, hfair, ?_⟩
  exact pipe_tla_termination hinj (by decide) (by decide) he hfair

end Results

end SignalCrates.PipeTla
