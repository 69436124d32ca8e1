import SignalCrates.PipeWaiters

/-!
# The byte that a blocked reader waits for

While some frame is about to read or blocked in `read`, a byte is in the pipe, or a
guard is live, or a frame that will write a byte or retry its exchange can still run:
no frame above it on its stack blocks.
-/
namespace SignalCrates.PipeLock
open SignalLock TransitionSystem InterruptStack ExclusiveCell

variable {T : Type*}

/-- The frame has failed its exchange and is about to read, or is blocked in `read`. -/
def Frame.Blocks (f : Frame T) : Prop :=
  match f.pc with
  | .read _ => True
  | .reading _ => True
  | _ => False

/-- The frame has swapped `holder_tid` to 0 and will write a byte. -/
def Frame.Writes (g : Shared T) (f : Frame T) : Prop :=
  match f.pc with
  | .write => True
  | .fenceUnlock => g.waiters ≠ 0
  | .load => g.waiters ≠ 0
  | _ => False

/-- The contended frame will retry its exchange before it reads. -/
def Frame.Retries (f : Frame T) : Prop :=
  match f.pc with
  | .fetchAdd _ => True
  | .fence _ => True
  | .exchange _ => True
  | _ => False

def Frame.OnDuty (g : Shared T) (f : Frame T) : Prop := f.Writes g ∨ f.Retries

/-- Some frame of the stack is on duty and no frame above it blocks. -/
def Carries (g : Shared T) : List (Frame T) → Prop
  | [] => False
  | f :: fs => f.OnDuty g ∨ ¬ f.Blocks ∧ Carries g fs

/-- The thread's innermost frame is about to read or blocked in `read`. -/
def ReadsNext (s : World T) (u : Tid) : Prop := ∃ f fs, s.stack u = f :: fs ∧ f.Blocks

/-- What must hold while some frame waits for a byte. -/
def Duty (s : World T) : Prop :=
  (∃ u, ∃ f ∈ s.stack u, f.Blocks) →
    0 < s.shared.bytes ∨ (∃ t, guards s t ≠ []) ∨ ∃ u, Carries s.shared (s.stack u)

theorem Frame.Blocks.registered {f : Frame T} (h : f.Blocks) : f.registered = [()] := by
  obtain ⟨pc, gs⟩ := f
  cases pc <;> first | rfl | exact h.elim

theorem Frame.Blocks.not_onDuty {g : Shared T} {f : Frame T} (h : f.Blocks) : ¬ f.OnDuty g := by
  obtain ⟨pc, gs⟩ := f
  cases pc
  case read => exact fun hd => hd.elim id id
  case reading => exact fun hd => hd.elim id id
  all_goals exact h.elim

theorem Frame.OnDuty.mono {g g' : Shared T} {f : Frame T} (h : f.OnDuty g)
    (hw : g.waiters ≠ 0 → g'.waiters ≠ 0) : f.OnDuty g' := by
  refine h.imp_left fun h => ?_
  obtain ⟨pc, gs⟩ := f
  cases pc
  case fenceUnlock => exact hw h
  case load => exact hw h
  all_goals exact h

theorem Carries.mono {g g' : Shared T} {fs : List (Frame T)} (h : Carries g fs)
    (hw : g.waiters ≠ 0 → g'.waiters ≠ 0) : Carries g' fs := by
  induction fs with
  | nil => exact h
  | cons f fs ih => exact h.imp (fun h => h.mono hw) fun h => ⟨h.1, ih h.2⟩

/-- A stack that carries the duty has an innermost frame that does not block. -/
theorem Carries.not_readsNext {s : World T} {u : Tid} (h : Carries s.shared (s.stack u)) :
    ¬ ReadsNext s u := by
  rintro ⟨f, fs, hs, hf⟩
  rw [hs] at h
  exact h.elim hf.not_onDuty fun h => h.1 hf

theorem Carries.exists_onDuty {g : Shared T} {fs : List (Frame T)} (h : Carries g fs) :
    ∃ f ∈ fs, f.OnDuty g := by
  induction fs with
  | nil => exact h.elim
  | cons f fs ih =>
    rcases h with h | ⟨-, h⟩
    · exact ⟨f, List.mem_cons_self, h⟩
    · obtain ⟨d, hd, hduty⟩ := ih h
      exact ⟨d, List.mem_cons_of_mem _ hd, hduty⟩

/-- A step of one thread keeps the duty if it keeps what that thread carries. -/
theorem carries_put {s : World T} {t : Tid} {g : Shared T} {fs fs' : List (Frame T)}
    (h : ∃ u, Carries s.shared (s.stack u)) (hs : s.stack t = fs)
    (hw : s.shared.waiters ≠ 0 → g.waiters ≠ 0)
    (hfs : Carries s.shared fs → Carries g fs') :
    ∃ u, Carries (s.put t g fs').shared ((s.put t g fs').stack u) := by
  obtain ⟨u, hu⟩ := h
  by_cases hut : u = t
  · subst hut
    rw [hs] at hu
    exact ⟨u, by simpa using hfs hu⟩
  · exact ⟨u, by simpa [hut] using hu.mono hw⟩

/-- A frame that blocks after a step of `t` did so before, unless it is a new one of `t`. -/
theorem blocks_put {s : World T} {t : Tid} {g : Shared T} {fs fs' : List (Frame T)}
    (hs : s.stack t = fs) (hfs : (∃ f ∈ fs', f.Blocks) → ∃ f ∈ fs, f.Blocks)
    (h : ∃ u, ∃ f ∈ (s.put t g fs').stack u, f.Blocks) : ∃ u, ∃ f ∈ s.stack u, f.Blocks := by
  refine exists_frame (t := t) (fun u hu => (State.put_stack_ne _ _ _ hu).symm) (fun _ => id) ?_ h
  rwa [State.put_stack_self, hs]

/-- A step that touches neither the pipe nor the guards keeps the duty if its thread
keeps what it carries and has no new frame that blocks. -/
theorem Duty.put {s : World T} (h : Duty s) {t : Tid} {g : Shared T} {fs fs' : List (Frame T)}
    (hs : s.stack t = fs) (hbytes : g.bytes = s.shared.bytes)
    (hw : s.shared.waiters ≠ 0 → g.waiters ≠ 0)
    (hlive : ∀ u, guards (s.put t g fs') u = guards s u)
    (hb : (∃ f ∈ fs', f.Blocks) → ∃ f ∈ fs, f.Blocks)
    (hc : Carries s.shared fs → Carries g fs') : Duty (s.put t g fs') := by
  intro hblocked
  rcases h (blocks_put hs hb hblocked) with h | ⟨u, hu⟩ | h
  · left
    rwa [State.put_shared, hbytes]
  · exact .inr (.inl ⟨u, by rwa [hlive u]⟩)
  · exact .inr (.inr (carries_put h hs hw hc))

theorem retry_onDuty {g : Shared T} {t : Tid} (gs : List (PipeLockGuard T)) (ht : t ≠ 0) :
    (⟨retry t 0, gs⟩ : Frame T).OnDuty g := by
  unfold retry
  rw [if_neg ht.symm, if_pos rfl]
  exact .inr trivial

theorem unlock_onDuty {g : Shared T} (t : Tid) (contended : Bool)
    (gs : List (PipeLockGuard T)) (hw : g.waiters ≠ 0) :
    (⟨unlock t contended t, gs⟩ : Frame T).OnDuty g := by
  unfold unlock
  rw [if_neg (not_not.mpr rfl)]
  split_ifs
  · exact .inl trivial
  · exact .inl hw

/-- An action leaves a byte or a held lock, or puts its frame on duty, or is made by a frame
that was not on duty and does not begin to block. -/
inductive Progress (s : Shared T) (f : Frame T) (s' : Shared T) (f' : Frame T) : Prop
  | byte (h : 0 < s'.bytes)
  | held (h : s'.holderTid ≠ 0)
  | onDuty (h : f'.OnDuty s')
  | idle (hbytes : s'.bytes = s.bytes) (hholder : s'.holderTid = s.holderTid)
      (hf : f'.guards = f.guards) (hb : f'.Blocks → f.Blocks) (hd : ¬ f.OnDuty s)

theorem Acts.progress {capacity : ℕ} {t c : Tid} {a : Action T} {s s' : Shared T}
    {f f' : Frame T} (h : Acts capacity t s a f s' f') (hcap : 1 ≤ capacity)
    (hf : f.pc.Sound c) (hc : c ≠ 0) (hg : ∀ g gs, f.guards = g :: gs → OwnedBy g.tid s)
    (hw : s'.waiters ≠ 0) : Progress s f s' f' := by
  cases h with
  | lock => exact .idle rfl rfl rfl id fun hd => hd.elim id id
  | win _ =>
    obtain rfl := hf
    exact .held hc
  | winContended _ =>
    obtain rfl := hf
    exact .held hc
  | contend =>
    unfold lockContended
    split_ifs
    · exact .idle rfl rfl rfl id fun hd => hd.elim id id
    · exact .onDuty (.inr trivial)
  | @lose _ tid gs =>
    obtain rfl := hf
    by_cases h0 : s.holderTid = 0
    · rw [h0]
      exact .onDuty (retry_onDuty gs hc)
    · exact .held h0
  | fetchAdd => exact .onDuty (.inr trivial)
  | fence => exact .onDuty (.inr trivial)
  | fetchSub => exact .idle rfl rfl rfl id fun hd => hd.elim id id
  | enterRead => exact .idle rfl rfl rfl id fun hd => hd.elim id id
  | read _ => exact .onDuty (.inr trivial)
  | fenceUnlock => exact .onDuty (.inl hw)
  | load =>
    have hpos : 0 < s.waiters := (BitVec.pos_iff_ne_zero _).mpr hw
    rw [if_pos hpos]
    exact .onDuty (.inl trivial)
  | write _ => exact .byte (Nat.succ_pos _)
  | writeFull h => exact .byte (by omega)
  | writeEintr => exact .onDuty (.inl trivial)
  | ret => exact .idle rfl rfl rfl id fun hd => hd.elim id id
  | @access b g gs _ _ _ =>
    obtain ⟨hne, hholder⟩ := hg g gs rfl
    exact .held (by rwa [← hholder] at hne)
  | @drop g gs =>
    rw [(hg g gs rfl).2]
    exact .onDuty (unlock_onDuty _ _ gs hw)

/-- Only `fetch_add` registers a frame, which then retries its exchange. -/
theorem Acts.registered_le {capacity : ℕ} {t : Tid} {a : Action T} {s s' : Shared T}
    {f f' : Frame T} (h : Acts capacity t s a f s' f') :
    f'.registered.length ≤ f.registered.length ∨ (∃ u, a = .op .fetchAdd u) ∧ f'.Retries := by
  cases h with
  | fetchAdd => exact .inr ⟨⟨_, rfl⟩, trivial⟩
  | contend => exact .inl (by simp only [Frame.registered, lockContended_registered]; rfl)
  | lose => exact .inl (by simp only [Frame.registered, retry_registered]; exact le_refl 1)
  | drop => exact .inl (by simp only [Frame.registered, unlock_registered]; rfl)
  | load => exact .inl (by split_ifs <;> exact Nat.le_refl 0)
  | fetchSub => exact .inl (Nat.zero_le 1)
  | winContended _ => exact .inl (le_refl 1)
  | fence => exact .inl (le_refl 1)
  | enterRead => exact .inl (le_refl 1)
  | read _ => exact .inl (le_refl 1)
  | _ => exact .inl (le_refl 0)

theorem interrupted_duty {g : Shared T} (f : Frame T) :
    (⟨(f.pc.step .readEintr).getD f.pc, f.guards⟩ : Frame T) = f ∨
      f.Blocks ∧ (⟨(f.pc.step .readEintr).getD f.pc, f.guards⟩ : Frame T).OnDuty g ∧
        ¬ (⟨(f.pc.step .readEintr).getD f.pc, f.guards⟩ : Frame T).Blocks := by
  obtain ⟨pc, gs⟩ := f
  rcases interrupted_cases pc with ⟨tid, rfl, he⟩ | he
  · simp only [he]
    exact .inr ⟨trivial, .inr trivial, id⟩
  · simp only [he]
    exact .inl trivial

/-- Signals, returns and hand-outs leave the frames on duty where they can run. -/
theorem duty_quiet {capacity : ℕ} {s : World T} {t : Tid} {l : Label Tid (Action T)}
    {fs fs' : List (Frame T)} {g' : Shared T} (hI : Duty s) (hs : s.stack t = fs)
    (hm : Move (program T capacity) t l s.shared fs g' fs') (hact : ∀ a, l ≠ .act t a)
    (hl : ∀ u, guards (s.put t g' fs') u = guards s u) : Duty (s.put t g' fs') := by
  cases hm with
  | spawn _ =>
    refine hI.put hs rfl id hl ?_ False.elim
    rintro ⟨d, hd, hb⟩
    rw [List.mem_singleton.mp hd] at hb
    exact hb.elim
  | @signal _ f fs =>
    change ∀ u, guards (s.put t s.shared
      (⟨.client, []⟩ :: ⟨(f.pc.step .readEintr).getD f.pc, f.guards⟩ :: fs)) u = _ at hl
    change Duty (s.put t s.shared
      (⟨.client, []⟩ :: ⟨(f.pc.step .readEintr).getD f.pc, f.guards⟩ :: fs))
    rcases interrupted_duty (g := s.shared) f with he | ⟨hf, hd, hnb⟩
    · rw [he] at hl ⊢
      refine hI.put hs rfl id hl ?_ fun hc => .inr ⟨id, hc⟩
      rw [List.exists_mem_cons_iff]
      exact fun h => h.resolve_left id
    · refine hI.put hs rfl id hl (fun _ => ⟨f, List.mem_cons_self, hf⟩) fun _ => ?_
      exact .inr ⟨id, .inl hd⟩
  | act _ => exact absurd rfl (hact _)
  | @finish _ f fs hf =>
    have hd : ¬ f.OnDuty s.shared := by
      obtain rfl := returns_cases hf
      exact fun hd => hd.elim id id
    refine hI.put hs rfl id hl ?_ fun hc => (hc.resolve_left hd).2
    rw [List.exists_mem_cons_iff]
    exact .inr
  | @handOut _ f f₀ f' f₀' fs hh =>
    obtain ⟨gs, rfl, rfl, rfl⟩ := handOut_cases hh
    refine hI.put hs rfl id hl ?_ fun hc => .inr ⟨id, (hc.resolve_left fun hd => hd.elim id id).2⟩
    simp only [List.exists_mem_cons_iff]
    exact id

theorem duty_act {x : T} {capacity : ℕ} (hcap : 1 ≤ capacity) {s : World T} {t : Tid}
    {b : Action T} {f f' : Frame T} {fs : List (Frame T)} {g' : Shared T}
    (hr : Reach (system x capacity) noWrap s)
    (hr' : Reach (system x capacity) noWrap (s.put t g' (f' :: fs))) (hI : Duty s)
    (hfew : total Frame.registered s < 2 ^ 32) (hs : s.stack t = f :: fs)
    (ha : Acts capacity t s.shared b f g' f') : Duty (s.put t g' (f' :: fs)) := by
  intro hblocked
  rcases ha.registered_le with hle | ⟨-, hretry⟩
  swap
  · exact .inr (.inr ⟨t, by rw [State.put_stack_self]; exact .inl (.inr hretry)⟩)
  have hlt : total Frame.registered (s.put t g' (f' :: fs)) < 2 ^ 32 := by
    have hsum : total Frame.registered (s.put t g' (f' :: fs)) + _ = _ := total_put g' hs
    omega
  have hw : g'.waiters ≠ 0 := by
    obtain ⟨u, d, hd, hb⟩ := hblocked
    exact waiters_ne_zero hr' hlt hd hb.registered
  have hsound := sound_of_reach hr t
  rw [hs] at hsound
  have ht : t ≠ 0 := validTid_of_reach hr (by simp [hs])
  have hg : ∀ g gs, f.guards = g :: gs → OwnedBy g.tid s.shared := by
    intro g gs hf
    obtain ⟨htid, hholder⟩ := of_guard hr hs hf
    rw [htid]
    exact ⟨ht, hholder⟩
  cases ha.progress hcap hsound.1 ht hg hw with
  | byte h => exact .inl h
  | held h =>
    exact .inr (.inl (not_forall.mp fun hg => h ((holderTid_eq_zero_iff hr').mpr hg)))
  | onDuty h => exact .inr (.inr ⟨t, by rw [State.put_stack_self]; exact .inl h⟩)
  | idle hbytes _ hf hb hd =>
    refine hI.put hs hbytes (fun _ => hw) (live_put_eq g' hs hf) ?_ ?_ hblocked
    · simp only [List.exists_mem_cons_iff]
      exact .imp_left hb
    · intro hc
      obtain ⟨hnb, hc⟩ := hc.resolve_left hd
      exact .inr ⟨fun hbd => hnb (hb hbd), hc.mono fun _ => hw⟩

theorem duty_next {x : T} {capacity : ℕ} (hcap : 1 ≤ capacity) {s s' : World T}
    {l : Label Tid (Action T)} (hr : Reach (system x capacity) noWrap s) (hI : Duty s)
    (hok : noWrap s l) (hn : InterruptStack.next (program T capacity) s l = some s') :
    Duty s' := by
  have hr' : Reach (system x capacity) noWrap s' := .step hr hok hn
  rcases (conserves capacity).live_next hn with
    ⟨hl, hact⟩ | ⟨t, b, f, fs, g', f', rfl, hs, ha, rfl⟩
  · obtain ⟨t, fs, g', fs', hs, hm, rfl⟩ := next_cases hn
    exact duty_quiet hI hs hm (hact t) hl
  · exact duty_act hcap hr hr' hI hok hs (act_cases ha)

theorem duty_of_reach {x : T} {capacity : ℕ} (hcap : 1 ≤ capacity) {s : World T}
    (h : Reach (system x capacity) noWrap s) : Duty s := by
  refine h.invariant ?_ ?_
  · rintro s ⟨stale, rfl⟩ ⟨u, f, hf, -⟩
    exact absurd hf List.not_mem_nil
  · exact fun s l s' hr hI hok hn => duty_next hcap hr hI hok hn

/-- A frame that waits for a byte is not forgotten: there is a byte, a live guard, or a
thread that does not read next and has a frame that will write or retry. -/
def NoLostWakeup (s : World T) : Prop :=
  (∃ u, ∃ f ∈ s.stack u, f.Blocks) →
    0 < s.shared.bytes ∨ (∃ t, guards s t ≠ []) ∨
      (∃ u, ¬ ReadsNext s u ∧ ∃ f ∈ s.stack u, f.Writes s.shared) ∨
      ∃ u, ¬ ReadsNext s u ∧ ∃ f ∈ s.stack u, f.Retries

/-- The lock is free, the pipe is empty and all threads that are left read next. -/
def Deadlocked (s : World T) : Prop :=
  s.shared.holderTid = 0 ∧ s.shared.bytes = 0 ∧ (∃ u, s.stack u ≠ []) ∧
    ∀ u, s.stack u ≠ [] → ReadsNext s u

theorem pipe_never_loses_wakeup {x : T} {capacity : ℕ} (hcap : 1 ≤ capacity) {s : World T}
    (h : Reach (system x capacity) noWrap s) : NoLostWakeup s ∧ ¬ Deadlocked s := by
  have hduty := duty_of_reach hcap h
  constructor
  · intro hb
    rcases hduty hb with hbytes | hlive | ⟨u, hu⟩
    · exact .inl hbytes
    · exact .inr (.inl hlive)
    · obtain ⟨f, hf, hd⟩ := hu.exists_onDuty
      have hnot := hu.not_readsNext
      exact .inr (.inr (hd.imp (fun hd => ⟨u, hnot, f, hf, hd⟩) fun hd => ⟨u, hnot, f, hf, hd⟩))
  · rintro ⟨hfree, hempty, ⟨u, hu⟩, hall⟩
    obtain ⟨f, fs, hs, hb⟩ := hall u hu
    rcases hduty ⟨u, f, by simp [hs], hb⟩ with hbytes | ⟨t, ht⟩ | ⟨v, hv⟩
    · omega
    · exact ht ((holderTid_eq_zero_iff h).mp hfree t)
    · refine hv.not_readsNext (hall v ?_)
      intro he
      rwa [he] at hv

/-- Thread 1 holds the lock, thread 2 has read a stale byte and waits for another one. -/
def waiting : List (Label Tid (Action Unit)) :=
  [.spawn 1, .act 1 .lock, .act 1 (.op (.win 1) id), .spawn 2, .act 2 .lock,
    .act 2 (.op (.lose 1) id), .act 2 (.op .fetchAdd id), .act 2 (.op .fence id),
    .act 2 (.op (.lose 1) id), .act 2 (.op .enterRead id), .act 2 (.op .read id),
    .act 2 (.op (.lose 1) id), .act 2 (.op .enterRead id)]

theorem pipe_never_loses_wakeup_waiting :
    ∃ s, run (system () 1) (new () 1) waiting = some s ∧ (∃ f ∈ s.stack 2, f.Blocks) ∧
      NoLostWakeup s := by
  have hs : run (system () 1) (new () 1) waiting = some _ := rfl
  have hnew : Reach (system () 1) noWrap (new () 1) := .initial ⟨1, rfl⟩
  have hr := reach_noWrap hnew (by rw [total_new]; simp [waiting]) hs
  exact ⟨_, rfl, ⟨_, List.mem_singleton_self _, trivial⟩, (pipe_never_loses_wakeup le_rfl hr).1⟩

/-- Thread 1 has taken the lock without contention. -/
def holding : World Unit :=
  (new () 0).put 1 ⟨1, 0, 0, ⟨(), [id]⟩⟩ [⟨.client, [⟨1, false, .enter id⟩]⟩]

/-- Then `n` frames of thread 2, each a handler that interrupts the one below it, have
announced themselves as waiters. -/
def crowd (n : ℕ) (fs : List (Frame Unit)) : World Unit :=
  holding.put 2 { holding.shared with waiters := BitVec.ofNat 32 n } fs

theorem reach_holding : Reach (system () 1) anyStep holding := by
  have hspawn : Reach (system () 1) anyStep ((new () 0).put 1 (new () 0).shared
      [⟨.client, []⟩]) := .step (.initial ⟨0, rfl⟩) (a := .spawn 1) trivial rfl
  have hlock := act_put hspawn .lock rfl
  have hwin := act_put hlock (.op (.win 1) id) rfl
  exact act_put hwin .ret rfl

/-- A fresh frame of thread 2 loses against thread 1 and adds itself to `waiters`. -/
theorem reach_register {n : ℕ} {fs : List (Frame Unit)}
    (h : Reach (system () 1) anyStep (crowd n (⟨.client, []⟩ :: fs))) :
    Reach (system () 1) anyStep (crowd (n + 1) (⟨.exchange 2, []⟩ :: fs)) := by
  have hlock := act_put h .lock rfl
  have hlose := act_put hlock (.op (.lose 1) id) rfl
  have hadd := act_put hlose (.op .fetchAdd id) rfl
  have hfence := act_put hadd (.op .fence id) rfl
  have hn : BitVec.ofNat 32 n + 1 = BitVec.ofNat 32 (n + 1) := (BitVec.ofNat_add n 1).symm
  rwa [hn] at hfence

theorem reach_crowd (n : ℕ) :
    Reach (system () 1) anyStep (crowd (n + 1) (List.replicate (n + 1) ⟨.exchange 2, []⟩)) := by
  induction n with
  | zero => exact reach_register (.step reach_holding (a := .spawn 2) trivial rfl)
  | succ n ih => exact reach_register (signal_put ih rfl)

/-- With `2 ^ 32` frames registered the counter is 0: thread 1 unlocks without a write
and exits, and the innermost frame of thread 2 reads from an empty pipe. -/
theorem reach_lost (n : ℕ) (hn : n + 1 = 2 ^ 32) :
    ∃ s, Reach (system () 1) anyStep s ∧ s.shared.bytes = 0 ∧
      s.stack 2 = ⟨.reading 2, []⟩ :: List.replicate n ⟨.exchange 2, []⟩ ∧
      ∀ u, u ≠ 2 → s.stack u = [] := by
  have hwrap : BitVec.ofNat 32 (n + 1) = 0 := by rw [hn]; rfl
  have hread := act_put (act_put (reach_crowd n) (.op (.lose 1) id) rfl) (.op .enterRead id) rfl
  rw [hwrap, holding, State.put_comm _ _ _ _ _ (by decide)] at hread
  have hdrop := act_put hread .drop rfl
  have hload := act_put (act_put hdrop (.op .fence id) rfl) (.op (.load 0) id) rfl
  refine ⟨_, .step hload (a := .finish 1) trivial rfl, rfl, rfl, fun u hu => ?_⟩
  by_cases hu₁ : u = 1
  · subst hu₁
    exact State.put_stack_self _ _ _ _
  · rw [State.put_put, State.put_stack_ne _ _ _ hu₁, State.put_stack_ne _ _ _ hu]
    rfl

theorem pipe_wrapped_waiters_lose_wakeup :
    ¬ ∀ s : World Unit, Reach (system () 1) anyStep s → NoLostWakeup s := by
  intro h
  obtain ⟨n, hn⟩ : ∃ n, n + 1 = 2 ^ 32 := ⟨2 ^ 32 - 1, rfl⟩
  obtain ⟨s, hs, hbytes, h₂, hrest⟩ := reach_lost n hn
  have hreads : ReadsNext s 2 := ⟨_, _, h₂, trivial⟩
  have hthread : ∀ u, ¬ ReadsNext s u → s.stack u = [] := by
    intro u hu
    exact hrest u fun he => hu (he ▸ hreads)
  have hblocks : ∃ u, ∃ f ∈ s.stack u, f.Blocks :=
    ⟨2, ⟨.reading 2, []⟩, by rw [h₂]; exact List.mem_cons_self, trivial⟩
  rcases h s hs hblocks with hb | ⟨t, ht⟩ | ⟨u, hu, f, hf, -⟩ |
    ⟨u, hu, f, hf, -⟩
  · omega
  · refine ht ?_
    by_cases ht₂ : t = 2
    · rw [guards, live, ht₂, h₂]
      simp [List.flatMap_eq_nil_iff, List.mem_replicate]
    · rw [guards, live, hrest t ht₂]
      rfl
  · rw [hthread u hu] at hf
    exact absurd hf List.not_mem_nil
  · rw [hthread u hu] at hf
    exact absurd hf List.not_mem_nil

end SignalCrates.PipeLock
