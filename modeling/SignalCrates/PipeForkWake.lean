import SignalCrates.PipeWake
import SignalCrates.PipeFork

/-!
# The byte of a shared pipe

After a fork the processes have separate locks and one pipe, and a byte written to wake a
frame of one process may be read by a frame of another.
-/
namespace SignalCrates.PipeLock
open SignalLock TransitionSystem InterruptStack LockCall CellRefinement Fork

variable {T : Type*}

/-- The frame is blocked in `read` while the pipe is empty. -/
def Frame.Reading (f : Frame T) : Prop :=
  match f.pc with
  | .reading _ => True
  | _ => False

/-- The frame has swapped `holder_tid` and not returned from `unlock`. -/
def Frame.Unlocks (f : Frame T) : Prop :=
  match f.pc with
  | .fenceUnlock => True
  | .load => True
  | .write => True
  | _ => False

/-- The frame is in the middle of `unlock` or will retry its exchange. -/
def Frame.Acting (f : Frame T) : Prop := f.Unlocks ∨ f.Retries

def Waits (s : World T) : Prop := ∃ u, ∃ f ∈ s.stack u, f.Blocks

/-- The process's own lock is held, or one of its frames will look after the waiters. -/
def Served (s : World T) : Prop := s.shared.holderTid ≠ 0 ∨ ∃ u, ∃ f ∈ s.stack u, f.Acting

/-- Some frame is blocked on the empty pipe, the process's lock is free, and no frame of
the process is in the middle of `unlock` or retrying. -/
def Stranded (s : World T) : Prop :=
  s.shared.bytes = 0 ∧ (∃ u, ∃ f ∈ s.stack u, f.Reading) ∧ ¬ Served s

/-- Runs in which no process is left without its byte: a read leaves one to each other
process whose waiters depend on it, a fork does not copy a waiter away from the byte or
the frames it depends on, and `waiters` does not wrap. -/
def keepsWakeups (w : Fork.World Tid (Shared T) (Frame T)) : Event Tid (Action T) → Prop
  | .step p (.act _ (.op .read _)) => ∀ q s, q ≠ p → w[q]? = some s → Waits s →
      1 < s.shared.bytes ∨ Served s
  | .step p (.act _ (.op .fetchAdd _)) => ∀ s, w[p]? = some s → s.shared.waiters + 1 ≠ 0
  | .fork p t _ => ∀ s, w[p]? = some s → (∃ f ∈ s.stack t, f.Blocks) →
      0 < s.shared.bytes ∨ s.shared.holderTid ≠ 0 ∨ ∃ f ∈ s.stack t, f.Acting
  | _ => True

/-- Runs in which a process forks only while its lock is free. -/
def forksFree (w : Fork.World Tid (Shared T) (Frame T)) : Event Tid (Action T) → Prop
  | .fork p _ _ => ∀ s, w[p]? = some s → s.shared.holderTid = 0
  | _ => True

theorem Frame.Acting.onDuty {g : Shared T} {f : Frame T} (h : f.Acting) (hw : g.waiters ≠ 0) :
    f.OnDuty g := by
  refine h.imp_left fun h => ?_
  obtain ⟨pc, gs⟩ := f
  cases pc
  case fenceUnlock => exact hw
  case load => exact hw
  all_goals exact h

theorem Frame.OnDuty.acting {g : Shared T} {f : Frame T} (h : f.OnDuty g) : f.Acting := by
  refine h.imp_left fun h => ?_
  obtain ⟨pc, gs⟩ := f
  cases pc
  case fenceUnlock => trivial
  case load => trivial
  all_goals exact h

theorem Frame.Reading.blocks {f : Frame T} (h : f.Reading) : f.Blocks := by
  obtain ⟨pc, gs⟩ := f
  cases pc
  case reading => trivial
  all_goals exact h.elim

/-- The registered frames of a process are counted in its copy of `waiters`. -/
def Counted (s : World T) : Prop := total Frame.registered s ≤ s.shared.waiters.toNat

/-- While some frame waits there is a byte, a held lock, or a frame on duty. -/
def Covered (s : World T) : Prop :=
  Waits s → 0 < s.shared.bytes ∨ s.shared.holderTid ≠ 0 ∨
    ∃ u, ∃ f ∈ s.stack u, f.OnDuty s.shared

theorem Counted.waiters_ne_zero {s : World T} (h : Counted s) (hb : Waits s) :
    s.shared.waiters ≠ 0 := by
  obtain ⟨u, f, hf, hb⟩ := hb
  have hpos : 0 < (live Frame.registered s u).length := by
    refine List.length_pos_of_mem (a := ()) (List.mem_flatMap.mpr ⟨f, hf, ?_⟩)
    rw [hb.registered]
    exact List.mem_singleton_self _
  have hle := (length_le_total Frame.registered s u).trans h
  intro h0
  rw [h0] at hle
  exact absurd (hpos.trans_le hle) (lt_irrefl 0)

theorem Covered.not_stranded {s : World T} (h : Covered s) : ¬ Stranded s := by
  rintro ⟨hempty, ⟨u, f, hf, hr⟩, hserved⟩
  rcases h ⟨u, f, hf, hr.blocks⟩ with hbytes | hheld | ⟨v, d, hd, hduty⟩
  · omega
  · exact hserved (.inl hheld)
  · exact hserved (.inr ⟨v, d, hd, hduty.acting⟩)

/-- Two numbers of `waiters` that differ by one registration and do not wrap. -/
theorem toNat_add_registered {a b : BitVec 32} {m n : ℕ} (h : a + BitVec.ofNat 32 m =
    b + BitVec.ofNat 32 n) (hm : m ≤ 1) (hn : n ≤ 1) (hle : m ≤ b.toNat)
    (hwrap : m < n → b + 1 ≠ 0) : a.toNat + m = b.toNat + n := by
  interval_cases m <;> interval_cases n
  · simp at h
    rw [h]
  · have := hwrap (by omega)
    simp at h
    bv_omega
  · simp at h
    bv_omega
  · simp at h
    rw [h]

theorem counted_act {capacity : ℕ} {s : World T} {t : Tid} {a : Action T} {f f' : Frame T}
    {fs : List (Frame T)} {g' : Shared T} (hI : Counted s) (hs : s.stack t = f :: fs)
    (ha : Acts capacity t s.shared a f g' f')
    (hadd : ∀ u, a = .op .fetchAdd u → s.shared.waiters + 1 ≠ 0) :
    Counted (s.put t g' (f' :: fs)) := by
  have hsum : total Frame.registered (s.put t g' (f' :: fs)) + _ = _ := total_put g' hs
  have hle : f.registered.length ≤ s.shared.waiters.toNat := by
    refine le_trans ?_ ((length_le_total Frame.registered s t).trans hI)
    rw [live, hs, List.flatMap_cons, List.length_append]
    exact Nat.le_add_right _ _
  have hwaiters := toNat_add_registered ha.waiters (registered_length_le f)
    (registered_length_le f') hle fun hlt => by
      rcases ha.registered_le with hle | ⟨⟨u, rfl⟩, -⟩
      · omega
      · exact hadd u rfl
  rw [Counted] at hI ⊢
  rw [State.put_shared]
  omega

/-- A signal, a return or a hand-out leaves the frames on duty where they are. -/
theorem covered_quiet {capacity : ℕ} {s : World T} {t : Tid} {l : Label Tid (Action T)}
    {fs fs' : List (Frame T)} {g' : Shared T} (hI : Covered s) (hs : s.stack t = fs)
    (hm : Move (program T capacity) t l s.shared fs g' fs') (hact : ∀ a, l ≠ .act t a) :
    Covered (s.put t g' fs') := by
  have hput {fs' : List (Frame T)} (hb : (∃ f ∈ fs', f.Blocks) → ∃ f ∈ fs, f.Blocks)
      (hd : (∃ f ∈ fs, f.OnDuty s.shared) → ∃ f ∈ fs', f.OnDuty s.shared) :
      Covered (s.put t s.shared fs') := by
    intro hblocked
    refine (hI (blocks_put hs hb hblocked)).imp_right (.imp_right fun h => ?_)
    exact exists_frame (fun _ hu => State.put_stack_ne _ _ _ hu) (fun _ => id)
      (by rwa [State.put_stack_self, hs]) h
  cases hm with
  | spawn _ =>
    refine hput ?_ (by rintro ⟨d, hd, -⟩; exact absurd hd List.not_mem_nil)
    rintro ⟨d, hd, hb⟩
    rw [List.mem_singleton.mp hd] at hb
    exact hb.elim
  | @signal _ f fs =>
    change Covered (s.put t s.shared
      (⟨.client, []⟩ :: ⟨(f.pc.step .readEintr).getD f.pc, f.guards⟩ :: fs))
    rcases interrupted_duty (g := s.shared) f with he | ⟨-, hd, -⟩
    · rw [he]
      refine hput ?_ fun h => ?_
      · rw [List.exists_mem_cons_iff]
        exact fun h => h.resolve_left id
      · rw [List.exists_mem_cons_iff]
        exact .inr h
    · exact fun _ => .inr (.inr ⟨t, _, by simp, hd⟩)
  | act _ => exact absurd rfl (hact _)
  | @finish _ f fs hf =>
    obtain rfl := returns_cases hf
    refine hput ?_ fun h => ?_
    · rw [List.exists_mem_cons_iff]
      exact .inr
    · rw [List.exists_mem_cons_iff] at h
      exact h.resolve_left fun hd => hd.elim id id
  | @handOut _ f f₀ f' f₀' fs hh =>
    obtain ⟨gs, rfl, rfl, rfl⟩ := handOut_cases hh
    refine hput ?_ ?_ <;> simp only [List.exists_mem_cons_iff] <;> exact id

theorem covered_act {capacity : ℕ} (hcap : 1 ≤ capacity) {s : World T} {t : Tid}
    {a : Action T} {f f' : Frame T} {fs : List (Frame T)} {g' : Shared T}
    (hS : Sane (program T capacity) view Frame.Fits s) (hI : Covered s)
    (hC' : Counted (s.put t g' (f' :: fs))) (hs : s.stack t = f :: fs)
    (ha : Acts capacity t s.shared a f g' f') : Covered (s.put t g' (f' :: fs)) := by
  intro hblocked
  have hw : g'.waiters ≠ 0 := hC'.waiters_ne_zero hblocked
  obtain ⟨hfits, -, howned⟩ := hS
  have hf := hfits t
  rw [hs] at hf
  obtain ⟨⟨c, hc, hsound⟩, -⟩ := hf
  have hg : ∀ g gs, f.guards = g :: gs → OwnedBy g.tid s.shared := by
    intro g gs hgs
    refine howned.heldBy (t := t) (r := g) ?_
    rw [live, hs, List.flatMap_cons]
    refine List.mem_append_left _ ?_
    change g ∈ f.guards
    rw [hgs]
    exact List.mem_cons_self
  cases ha.progress hcap hsound hc hg hw with
  | byte h => exact .inl h
  | held h => exact .inr (.inl h)
  | onDuty h => exact .inr (.inr ⟨t, f', by simp, h⟩)
  | idle hbytes hholder _ hb hd =>
    have hblocked₀ : Waits s := by
      refine blocks_put hs ?_ hblocked
      simp only [List.exists_mem_cons_iff]
      exact .imp_left hb
    rcases hI hblocked₀ with h | h | h
    · exact .inl (by rwa [State.put_shared, hbytes])
    · exact .inr (.inl (by rwa [State.put_shared, hholder]))
    · refine .inr (.inr (exists_frame (fun _ hu => State.put_stack_ne _ _ _ hu)
        (fun _ hd => hd.mono fun _ => hw) ?_ h))
      rw [State.put_stack_self, hs, List.exists_mem_cons_iff, List.exists_mem_cons_iff]
      rintro (h | ⟨d, hdfs, hd⟩)
      · exact absurd h hd
      · exact .inr ⟨d, hdfs, hd.mono fun _ => hw⟩

/-- Only a read takes a byte, and only one. -/
theorem Acts.bytes {capacity : ℕ} {t : Tid} {a : Action T} {s s' : Shared T} {f f' : Frame T}
    (h : Acts capacity t s a f s' f') :
    s.bytes ≤ s'.bytes ∨ (∃ u, a = .op .read u) ∧ s.bytes = s'.bytes + 1 := by
  cases h with
  | read h => exact .inr ⟨⟨_, rfl⟩, (Nat.succ_pred_eq_of_pos h).symm⟩
  | write _ => exact .inl (Nat.le_succ _)
  | _ => exact .inl (le_refl _)

/-- A step of a process that is no read by another one, or that the waiters of this one
need not fear, keeps them covered. -/
theorem covered_share {s : World T} {g : Shared T} (hC : Counted s) (hI : Covered s)
    (hg : s.shared.bytes ≤ g.bytes ∨ s.shared.bytes = g.bytes + 1 ∧
      (Waits s → 1 < s.shared.bytes ∨ Served s)) : Covered (sharing (forking T) g s) := by
  intro hblocked
  rcases hg with hg | ⟨hg, hok⟩
  · refine (hI hblocked).imp_left fun h => ?_
    exact lt_of_lt_of_le h hg
  · rcases hok hblocked with h | hheld | ⟨u, f, hf, ha⟩
    · left
      change 0 < g.bytes
      omega
    · exact .inr (.inl hheld)
    · exact .inr (.inr ⟨u, f, hf, ha.onDuty (hC.waiters_ne_zero hblocked)⟩)

theorem covered_child {s : World T} {t u : Tid} {f : Frame T} {fs : List (Frame T)}
    (hC : Counted s) (hs : s.stack t = f :: fs)
    (hok : (∃ f ∈ s.stack t, f.Blocks) → 0 < s.shared.bytes ∨ s.shared.holderTid ≠ 0 ∨
      ∃ f ∈ s.stack t, f.Acting) : Covered (child (forking T) s u (f :: fs)) := by
  rintro ⟨v, d, hd, hb⟩
  obtain rfl : v = u := by
    by_contra hv
    rw [child_stack_ne _ _ _ hv] at hd
    exact absurd hd List.not_mem_nil
  rw [child_stack_self, ← hs] at hd
  refine (hok ⟨d, hd, hb⟩).imp_right (.imp_right ?_)
  rintro ⟨d', hd', ha⟩
  refine ⟨v, d', by rwa [child_stack_self, ← hs], ha.onDuty ?_⟩
  exact hC.waiters_ne_zero ⟨t, d, hd, hb⟩

theorem counted_child {s : World T} {t u : Tid} {f : Frame T} {fs : List (Frame T)}
    (hC : Counted s) (hs : s.stack t = f :: fs) :
    Counted (child (forking T) s u (f :: fs)) := by
  rw [Counted, total_eq_mass] at hC ⊢
  exact (mass_child_le _ (forking T) u hs).trans hC

/-- All processes read the same pipe. -/
theorem agree_of_reach {x : T} {capacity : ℕ}
    {ok : Fork.World Tid (Shared T) (Frame T) → Event Tid (Action T) → Prop}
    {w : Fork.World Tid (Shared T) (Frame T)} (h : Reach (forkSystem x capacity) ok w) :
    ∀ s ∈ w, ∀ s₀ ∈ w, s.shared.bytes = s₀.shared.bytes := by
  refine h.invariant
    (I := fun w => ∀ s ∈ w, ∀ s₀ ∈ w, s.shared.bytes = s₀.shared.bytes) ?_ ?_
  · rintro w ⟨stale, rfl⟩ s hs s₀ hs₀
    rw [List.mem_singleton.mp hs, List.mem_singleton.mp hs₀]
  · exact fun w e w' _ hI _ hn => agree_next (fun _ _ => rfl) (fun _ => rfl) hn hI

theorem bytes_next {capacity : ℕ} {s s' : World T} {l : Label Tid (Action T)}
    (h : InterruptStack.next (program T capacity) s l = some s') :
    s.shared.bytes ≤ s'.shared.bytes ∨
      (∃ t u, l = .act t (.op .read u)) ∧ s.shared.bytes = s'.shared.bytes + 1 := by
  rcases (conserves capacity).live_next h with ⟨-, hact⟩ | ⟨t, a, f, fs, g', f', rfl, hs, ha, rfl⟩
  · rcases shared_next h hact with he | ⟨t, f, he⟩
    · exact .inl (le_of_eq (by rw [he]))
    · exact .inl (le_of_eq (by rw [he]; rfl))
  · have hacts : Acts capacity t s.shared a f g' f' := act_cases ha
    refine hacts.bytes.imp_right fun h => ⟨?_, h.2⟩
    obtain ⟨⟨u, rfl⟩, -⟩ := h
    exact ⟨t, u, rfl⟩

theorem counted_covered_next {x : T} {capacity : ℕ} (hcap : 1 ≤ capacity)
    {w w' : Fork.World Tid (Shared T) (Frame T)} {e : Event Tid (Action T)}
    (hr : Reach (forkSystem x capacity) keepsWakeups w)
    (hI : ∀ s ∈ w, Counted s ∧ Covered s) (hok : keepsWakeups w e)
    (hn : Fork.next (program T capacity) (forking T) w e = some w') :
    ∀ s ∈ w', Counted s ∧ Covered s := by
  have hsame := agree_of_reach hr
  refine forall_next hn hI ?_ ?_ ?_
  · rintro p l s s' rfl hp hn ⟨hC, hI⟩
    rcases (conserves_registered capacity).live_next hn with
      ⟨hl, hact⟩ | ⟨t, a, f, fs, g', f', rfl, hs, ha, rfl⟩
    · constructor
      · rw [Counted, total_congr hl]
        rcases shared_next hn hact with he | ⟨t, f, he⟩ <;> rw [he] <;> exact hC
      · obtain ⟨t, fs, g', fs', hs, hm, rfl⟩ := next_cases hn
        exact covered_quiet hI hs hm (hact t)
    · have hacts : Acts capacity t s.shared a f g' f' := act_cases ha
      have hsane := sane_of_reach (lockCode T capacity) (forkSystem_initial x capacity) hr s
        (List.mem_of_getElem? hp)
      have hC' : Counted (s.put t g' (f' :: fs)) := by
        refine counted_act hC hs hacts ?_
        rintro u rfl
        exact hok s hp
      exact ⟨hC', covered_act hcap hsane hI hC' hs hacts⟩
  · rintro p q l s s' s₀ rfl hp hn hqp hq ⟨hC, hI⟩
    have hbytes := hsame s₀ (List.mem_of_getElem? hq) s (List.mem_of_getElem? hp)
    refine ⟨hC, covered_share hC hI ?_⟩
    rw [hbytes]
    refine (bytes_next hn).imp_right fun h => ⟨h.2, ?_⟩
    obtain ⟨⟨t, u, rfl⟩, -⟩ := h
    rw [← hbytes]
    exact hok q s₀ hqp hq
  · rintro p t u s f fs rfl hp hs - - ⟨hC, -⟩
    exact ⟨counted_child hC hs, covered_child hC hs (hok s hp)⟩

/-- In runs of `keepsWakeups` no process, of any generation, is left stranded. -/
theorem pipe_fork_keeps_wakeups {x : T} {capacity : ℕ} (hcap : 1 ≤ capacity)
    {w : Fork.World Tid (Shared T) (Frame T)}
    (h : Reach (forkSystem x capacity) keepsWakeups w) : ∀ s ∈ w, ¬ Stranded s := by
  suffices hI : ∀ s ∈ w, Counted s ∧ Covered s from fun s hs => (hI s hs).2.not_stranded
  refine h.invariant (I := fun w => ∀ s ∈ w, Counted s ∧ Covered s) ?_ ?_
  · rintro w ⟨stale, rfl⟩ s hs
    rw [List.mem_singleton.mp hs]
    refine ⟨?_, ?_⟩
    · rw [Counted, total_new]
      exact Nat.zero_le _
    · rintro ⟨u, f, hf, -⟩
      exact absurd hf List.not_mem_nil
  · exact fun w e w' hr hI hok hn => counted_covered_next hcap hr hI hok hn

/-- Thread 1 of a new process has forked, with the lock free. -/
def forked : Fork.World Tid (Shared Unit) (Frame Unit) :=
  [(new () 0).put 1 ⟨0, 0, 0, ⟨(), []⟩⟩ [⟨.client, []⟩],
    child (forking Unit) (new () 0) 2 [⟨.client, []⟩]]

theorem reach_forked {ok : Fork.World Tid (Shared Unit) (Frame Unit) →
      Event Tid (Action Unit) → Prop} (hspawn : ∀ w, ok w (.step 0 (.spawn 1)))
    (hfork : ∀ w, w[0]? = some ((new () 0).put 1 ⟨0, 0, 0, ⟨(), []⟩⟩ [⟨.client, []⟩]) →
      ok w (.fork 0 1 2)) : Reach (forkSystem () 1) ok forked := by
  have hnew : Reach (forkSystem () 1) ok [new () 0] := .initial ⟨0, rfl⟩
  exact .step (.step hnew (hspawn _) rfl) (hfork _ rfl) rfl

/-- Thread `t` of process `p` takes its lock, and a new thread `u` loses against it. -/
def contend (p : ℕ) (t u : Tid) : List (Event Tid (Action Unit)) :=
  [.step p (.act t .lock), .step p (.act t (.op (.win t) id)), .step p (.act t .ret),
    .step p (.spawn u), .step p (.act u .lock), .step p (.act u (.op (.lose t) id))]

def register (p : ℕ) (u : Tid) : Event Tid (Action Unit) := .step p (.act u (.op .fetchAdd id))

/-- After its `fetch_add`, thread `u` loses again and reads. -/
def block (p : ℕ) (t u : Tid) : List (Event Tid (Action Unit)) :=
  [.step p (.act u (.op .fence id)), .step p (.act u (.op (.lose t) id)),
    .step p (.act u (.op .enterRead id))]

/-- In each process one thread holds the lock and another waits for it; then thread 1 of
process 0 unlocks, and writes a byte for thread 3. -/
def waking : List (Event Tid (Action Unit)) :=
  contend 0 1 3 ++ [register 0 3] ++ (block 0 1 3 ++ contend 1 2 4) ++ [register 1 4] ++
    (block 1 2 4 ++ [.step 0 (.act 1 .drop), .step 0 (.act 1 (.op .fence id)),
      .step 0 (.act 1 (.op (.load 1) id)), .step 0 (.act 1 (.op .write id))])

theorem reach_waking : ∀ w, run (forkSystem () 1) forked waking = some w →
    Reach (forkSystem () 1) keepsWakeups w := by
  have hforked : Reach (forkSystem () 1) keepsWakeups forked := by
    refine reach_forked (fun _ => trivial) fun w hw s hs => ?_
    obtain rfl := Option.some.inj (hw.symm.trans hs)
    rintro ⟨f, hf, hb⟩
    obtain rfl := List.mem_singleton.mp hf
    exact hb.elim
  have hcontend₀ : ∀ w, run (forkSystem () 1) forked (contend 0 1 3) = some w →
      Reach (forkSystem () 1) keepsWakeups w := fun w =>
    hforked.run (by simp [contend, keepsWakeups])
  have hregister₀ := reach_snoc hcontend₀ (register 0 3) (by
    intro w hw s hs
    obtain rfl := Option.some.inj hw
    obtain rfl := Option.some.inj hs
    decide)
  have hcontend₁ := reach_append hregister₀ (block 0 1 3 ++ contend 1 2 4)
    (by simp [block, contend, keepsWakeups])
  have hregister₁ := reach_snoc hcontend₁ (register 1 4) (by
    intro w hw s hs
    obtain rfl := Option.some.inj hw
    obtain rfl := Option.some.inj hs
    decide)
  exact reach_append hregister₁ _ (by simp [block, keepsWakeups])

theorem pipe_fork_keeps_wakeups_forked :
    ∃ w s₀ s₁, run (forkSystem () 1) forked (waking ++ [.step 0 (.act 3 (.op .read id))]) =
      some w ∧ w = [s₀, s₁] ∧ s₁.stack 4 = [⟨.reading 4, []⟩] ∧ ¬ Stranded s₀ ∧
      ¬ Stranded s₁ := by
  obtain ⟨w, hw, s₀, s₁, rfl, hreading⟩ : ∃ w,
      run (forkSystem () 1) forked (waking ++ [.step 0 (.act 3 (.op .read id))]) = some w ∧
      ∃ s₀ s₁, w = [s₀, s₁] ∧ s₁.stack 4 = [⟨.reading 4, []⟩] := ⟨_, rfl, _, _, rfl, rfl⟩
  have hheld : ∀ w, run (forkSystem () 1) forked waking = some w →
      keepsWakeups w (.step 0 (.act 3 (.op .read id))) := by
    intro w hw q s hq hs _
    obtain ⟨s₀, s₁, rfl, hheld⟩ : ∃ s₀ s₁, w = [s₀, s₁] ∧ s₁.shared.holderTid ≠ 0 := by
      obtain rfl := Option.some.inj hw
      exact ⟨_, _, rfl, by decide⟩
    rcases q with _ | _ | q
    · exact absurd rfl hq
    · obtain rfl := Option.some.inj hs
      exact .inr (.inl hheld)
    · cases hs
  have hkept := pipe_fork_keeps_wakeups le_rfl (reach_snoc reach_waking _ hheld _ hw)
  exact ⟨_, s₀, s₁, hw, rfl, hreading, hkept s₀ (by simp), hkept s₁ (by simp)⟩

/-- The byte is read by thread 4 of the other process, and thread 3 is left waiting. -/
theorem pipe_fork_loses_wakeup :
    ¬ ∀ w : Fork.World Tid (Shared Unit) (Frame Unit),
      Reach (forkSystem () 1) forksFree w → ∀ s ∈ w, ¬ Stranded s := by
  intro h
  have hforked : Reach (forkSystem () 1) forksFree forked := by
    refine reach_forked (fun _ => trivial) fun w hw s hs => ?_
    obtain rfl := Option.some.inj (hw.symm.trans hs)
    rfl
  obtain ⟨w, hw, s, hs, hbytes, hfree, hs₁, hs₃⟩ : ∃ w,
      run (forkSystem () 1) forked (waking ++ [.step 1 (.act 4 (.op .read id))]) = some w ∧
      ∃ s, w[0]? = some s ∧ s.shared.bytes = 0 ∧ s.shared.holderTid = 0 ∧
        s.stack 1 = [⟨.client, []⟩] ∧ s.stack 3 = [⟨.reading 3, []⟩] :=
    ⟨_, rfl, _, rfl, rfl, rfl, rfl, rfl⟩
  have hrest (u : Tid) (hu₁ : u ≠ 1) (hu₃ : u ≠ 3) : s.stack u = [] := by
    rw [← stackOf_eq hs u, run_stackOf (p := 0) rfl ?_ hw]
    · exact State.put_stack_ne _ _ _ hu₁
    · simp [waking, contend, register, block, Label.thread]
      exact ⟨hu₁, hu₃, hu₁⟩
  have hr := hforked.run (by simp [waking, contend, register, block, forksFree]) hw
  have hreading : ∃ u, ∃ f ∈ s.stack u, f.Reading := by
    refine ⟨3, ⟨.reading 3, []⟩, ?_, trivial⟩
    rw [hs₃]
    exact List.mem_cons_self
  refine h w hr s (List.mem_of_getElem? hs) ⟨hbytes, hreading, ?_⟩
  rintro (hheld | ⟨u, f, hf, ha⟩)
  · exact hheld hfree
  · by_cases hu₁ : u = 1
    · rw [hu₁, hs₁, List.mem_singleton] at hf
      rw [hf] at ha
      exact ha.elim id id
    by_cases hu₃ : u = 3
    · rw [hu₃, hs₃, List.mem_singleton] at hf
      rw [hf] at ha
      exact ha.elim id id
    · rw [hrest u hu₁ hu₃] at hf
      exact absurd hf List.not_mem_nil

end SignalCrates.PipeLock
