import SignalCrates.FutexReentrancy

/-!
# The duty to wake the sleepers of a FutexLock

While some thread sleeps, the duty to wake one lies with the word, which makes the
next unlock wake, or with a frame of an awake thread that owes a wake or is inside
the contended loop.
-/
namespace SignalCrates.FutexLock
open SignalLock TransitionSystem InterruptStack ExclusiveCell FutexWord LockCall

variable {T : Type*}

/-- The frame owes a `wake_one`, or is inside the loop of `raw_lock_contended`. -/
def Frame.OnDuty (f : Frame T) : Prop := f.pc = .wake ∨ f.phase = .contended

/-- The innermost frame of the thread is not asleep, and one of its frames is on duty. -/
def CarriedBy (s : World T) (u : Tid) : Prop :=
  u ∉ s.shared.queue ∧ ∃ f ∈ s.stack u, f.OnDuty

def Carried (s : World T) : Prop := ∃ u, CarriedBy s u

def Duty (s : World T) : Prop :=
  s.shared.queue.Nonempty → Flagged s.shared.word ∨ Carried s

/-- The step does not take the duty away: when the loop finds its own thread in the
word, the word is flagged, or nobody sleeps, or another frame is on duty. -/
def keepsDuty (s : World T) : Label Tid (Action T) → Prop
  | .act t (.exchange _ _) | .act t .load => ∀ f fs, s.stack t = f :: fs →
      f.phase = .contended → s.shared.word &&& FUTEX_TID_MASK = t →
      s.shared.word &&& FUTEX_WAITERS ≠ 0 ∨ s.shared.queue = ∅ ∨
        (∃ u, u ≠ t ∧ CarriedBy s u) ∨ ∃ f ∈ fs, f.OnDuty
  | _ => True

/-- Only innermost frames sleep, and they do so inside `futex_wait`. -/
def Queued (s : World T) : Prop :=
  ∀ t ∈ s.shared.queue, ∃ tid gs fs, s.stack t = ⟨.waiting tid, gs⟩ :: fs

theorem Acts.queue {t : Tid} {a : Action T} {s s' : Shared T} {f f' : Frame T}
    (h : Acts t s a f s' f') :
    s'.queue ⊆ s.queue ∨ s'.queue = insert t s.queue ∧ ∃ tid gs, f' = ⟨.waiting tid, gs⟩ := by
  cases h with
  | sleep _ => exact .inr ⟨rfl, _, _, rfl⟩
  | spuriousWake => exact .inl (Finset.erase_subset _ _)
  | wakeSome _ => exact .inl (Finset.erase_subset _ _)
  | _ => exact .inl (Finset.Subset.refl _)

/-- A frame that leaves `futex_wait` is no longer in the queue. -/
theorem Acts.dequeued {t : Tid} {a : Action T} {s s' : Shared T} {f f' : Frame T}
    (h : Acts t s a f s' f') {tid : Tid} (hf : f.pc = .waiting tid) : t ∉ s'.queue := by
  cases h <;> simp_all

theorem queued_of_reach {x : T} {ok : World T → Label Tid (Action T) → Prop} {s : World T}
    (h : Reach (system x) ok s) : Queued s := by
  refine h.invariant ?_ ?_
  · rintro s rfl t ht
    exact absurd ht (Finset.notMem_empty t)
  · intro s l s' _ hI _ hn u hu
    obtain ⟨t, fs, g', fs', hs, hm, rfl⟩ := next_cases hn
    by_cases hut : u = t
    · subst hut
      rw [State.put_shared] at hu
      rw [State.put_stack_self]
      cases hm with
      | spawn _ => simpa [hs] using hI u hu
      | signal => exact absurd hu (Finset.notMem_erase _ _)
      | act ha =>
        have hacts := act_cases ha
        rcases hacts.queue with hq | ⟨-, tid, gs, rfl⟩
        · obtain ⟨tid, gs, fs, he⟩ := hI u (hq hu)
          rw [hs] at he
          obtain ⟨rfl, rfl⟩ := List.cons.inj he
          exact absurd hu (hacts.dequeued rfl)
        · exact ⟨tid, gs, _, rfl⟩
      | finish hf =>
        obtain ⟨tid, gs, fs, he⟩ := hI u hu
        rw [hs] at he
        obtain ⟨rfl, rfl⟩ := List.cons.inj he
        simp [program, returns] at hf
      | handOut hh =>
        obtain ⟨tid, gs, fs, he⟩ := hI u hu
        rw [hs] at he
        obtain ⟨rfl, rfl⟩ := List.cons.inj he
        simp [program, handOut] at hh
    · rw [State.put_stack_ne _ _ _ hut]
      refine hI u ?_
      cases hm with
      | spawn _ => exact hu
      | signal => exact Finset.mem_of_mem_erase hu
      | act ha =>
        rcases (act_cases ha).queue with hq | ⟨hq, -⟩
        · exact hq hu
        · rw [State.put_shared, hq] at hu
          exact Finset.mem_of_mem_insert_of_ne hu hut
      | finish _ => exact hu
      | handOut _ => exact hu

theorem not_queued {s : World T} (h : Queued s) {t : Tid} {f : Frame T} {fs : List (Frame T)}
    (hs : s.stack t = f :: fs) (hf : ∀ tid, f.pc ≠ .waiting tid) : t ∉ s.shared.queue := by
  intro ht
  obtain ⟨tid, gs, fs', he⟩ := h t ht
  rw [hs] at he
  obtain ⟨rfl, rfl⟩ := List.cons.inj he
  exact hf tid rfl

theorem CarriedBy.put_ne {s : World T} {u t : Tid} {g : Shared T} {fs : List (Frame T)}
    (h : CarriedBy s u) (hu : u ≠ t) (hq : g.queue ⊆ insert t s.shared.queue) :
    CarriedBy (s.put t g fs) u := by
  refine ⟨fun hm => h.1 (Finset.mem_of_mem_insert_of_ne (hq hm) hu), ?_⟩
  rw [State.put_stack_ne _ _ _ hu]
  exact h.2

/-- The duty is kept by a step of a thread whose frames on duty stay on duty. -/
theorem Carried.put {s : World T} {t : Tid} {g : Shared T} {fs fs' : List (Frame T)}
    (h : Carried s) (hs : s.stack t = fs) (hq : g.queue ⊆ s.shared.queue)
    (hfs : ∀ f ∈ fs, f.OnDuty → ∃ f' ∈ fs', f'.OnDuty) : Carried (s.put t g fs') := by
  obtain ⟨u, hu⟩ := h
  by_cases hut : u = t
  · subst hut
    obtain ⟨hnot, f, hf, hd⟩ := hu
    rw [hs] at hf
    exact ⟨u, fun hm => hnot (hq hm), by simpa using hfs f hf hd⟩
  · exact ⟨u, hu.put_ne hut (hq.trans (Finset.subset_insert _ _))⟩

theorem Carried.put_act {s : World T} {t : Tid} {g : Shared T} {f f' : Frame T}
    {fs : List (Frame T)} (h : Carried s) (hs : s.stack t = f :: fs)
    (hq : g.queue ⊆ s.shared.queue) (hf : f.OnDuty → f'.OnDuty) :
    Carried (s.put t g (f' :: fs)) := by
  refine h.put hs hq fun d hd hduty => ?_
  rcases List.mem_cons.mp hd with rfl | hd
  · exact ⟨f', by simp, hf hduty⟩
  · exact ⟨d, by simp [hd], hduty⟩

theorem carriedBy_top {s : World T} {t : Tid} {g : Shared T} {f : Frame T} {fs : List (Frame T)}
    (ht : t ∉ g.queue) (hf : f.OnDuty) : CarriedBy (s.put t g (f :: fs)) t :=
  ⟨ht, f, by simp, hf⟩

theorem Duty.of_carried {s s' : World T} (h : Duty s) (hq : s'.shared.queue ⊆ s.shared.queue)
    (hw : s'.shared.word = s.shared.word) (hc : Carried s → Carried s') : Duty s' := by
  rintro ⟨u, hu⟩
  rw [hw]
  exact (h ⟨u, hq hu⟩).imp_right hc

/-- Dropping the guard of a flagged word leaves a frame that owes a wake. -/
theorem rawUnlock_wake {t : Tid} {w : Word} (ht : validTid t = true) (h : HeldBy t w)
    (hw : w &&& FUTEX_WAITERS ≠ 0) : rawUnlock t w = .wake := by
  rcases h with rfl | rfl
  · exact absurd (validTid_and_waiters ht) hw
  · unfold rawUnlock
    rw [if_neg (not_not.mpr (or_waiters_and_mask ht)), if_pos (or_waiters_ne ht), if_pos rfl]

/-- The loop is left by a look at the word only when that shows the thread itself. -/
theorem recheck_duty {s : World T} {t : Tid} {f : Frame T} {fs : List (Frame T)}
    (hI : Duty s) (hs : s.stack t = f :: fs) (hnw : t ∉ s.shared.queue)
    (hl : s.shared.word &&& FUTEX_TID_MASK = t → s.shared.word &&& FUTEX_WAITERS ≠ 0 ∨
      s.shared.queue = ∅ ∨ (∃ u, u ≠ t ∧ CarriedBy s u) ∨ ∃ f ∈ fs, f.OnDuty)
    (ht : validTid t = true) :
    Duty (s.put t s.shared (⟨rawLockContended t s.shared.word, f.guards⟩ :: fs)) := by
  by_cases hw : s.shared.word &&& FUTEX_TID_MASK = t
  · intro hne
    rcases hl hw with hw' | hq | ⟨u, hu, hc⟩ | hfs
    · exact .inl ⟨by rw [State.put_shared, hw]; exact validTid_ne_zero ht, hw'⟩
    · exact absurd hne (by simp [hq])
    · exact .inr ⟨u, hc.put_ne hu (Finset.subset_insert _ _)⟩
    · obtain ⟨d, hd, hduty⟩ := hfs
      exact .inr ⟨t, hnw, d, by simp [hd], hduty⟩
  · refine hI.of_carried (Finset.Subset.refl _) rfl fun hc =>
      hc.put_act hs (Finset.Subset.refl _) fun _ => .inr ?_
    rw [Frame.phase, rawLockContended_phase, if_neg hw]

/-- A signal, a return or a hand-out leaves the duty with the thread that has it. -/
theorem duty_quiet {s : World T} {t : Tid} {l : Label Tid (Action T)} {fs fs' : List (Frame T)}
    {g' : Shared T} (hI : Duty s) (hs : s.stack t = fs)
    (hm : Move (program T) t l s.shared fs g' fs') (hact : ∀ a, l ≠ .act t a) :
    Duty (s.put t g' fs') := by
  have hput {g' : Shared T} {fs' : List (Frame T)} (hq : g'.queue ⊆ s.shared.queue)
      (hw : g'.word = s.shared.word)
      (hfs : ∀ f ∈ fs, f.OnDuty → ∃ f' ∈ fs', f'.OnDuty) : Duty (s.put t g' fs') :=
    hI.of_carried hq hw fun hc => hc.put hs hq hfs
  cases hm with
  | spawn _ => exact hput (Finset.Subset.refl _) rfl (by simp)
  | @signal _ f fs =>
    refine hput (Finset.erase_subset _ _) rfl ?_
    exact fun d hd hduty => ⟨d, List.mem_cons_of_mem _ hd, hduty⟩
  | act _ => exact absurd rfl (hact _)
  | @finish _ f fs hf =>
    refine hput (Finset.Subset.refl _) rfl ?_
    intro d hd hduty
    rcases List.mem_cons.mp hd with rfl | hd
    · obtain ⟨pc, gs⟩ := d
      cases pc <;> simp [program, returns, Frame.OnDuty, Frame.phase, Pc.phase] at hf hduty
    · exact ⟨d, hd, hduty⟩
  | @handOut _ f f₀ f' f₀' fs hh =>
    obtain ⟨gs, rfl, rfl, rfl⟩ := handOut_cases hh
    refine hput (Finset.Subset.refl _) rfl ?_
    intro d hd hduty
    simp only [List.mem_cons] at hd
    rcases hd with rfl | rfl | hd
    · simp [Frame.OnDuty, Frame.phase, Pc.phase] at hduty
    · exact ⟨⟨d.pc, gs ++ d.guards⟩, by simp, hduty⟩
    · exact ⟨d, by simp [hd], hduty⟩

theorem duty_act {x : T} {ok : World T → Label Tid (Action T) → Prop} {s : World T} {t : Tid}
    {b : Action T} {f f' : Frame T} {fs : List (Frame T)} {g' : Shared T}
    (hr : Reach (system x) ok s) (hI : Duty s) (hkeep : keepsDuty s (.act t b))
    (hs : s.stack t = f :: fs) (ha : (program T).act t b s.shared f = some (g', f')) :
    Duty (s.put t g' (f' :: fs)) := by
  have hQ := queued_of_reach hr
  have hvalid := validTid_of_reach hr (t := t) (by simp [hs])
  have hlocal := sound_of_reach hr t
  rw [hs] at hlocal
  have hown := hlocal.1
  -- an action that leaves word and queue alone and keeps the frame's duty
  have hsame : g'.word = s.shared.word → g'.queue = s.shared.queue →
      (f.OnDuty → f'.OnDuty) → Duty (s.put t g' (f' :: fs)) := fun hw hq hd =>
    hI.of_carried hq.le hw fun hc => hc.put_act hs hq.le hd
  cases act_cases ha with
  | lock => exact hsame rfl rfl (by simp [Frame.OnDuty, Frame.phase, Pc.phase])
  | contend => exact hsame rfl rfl (by simp [Frame.OnDuty, Frame.phase, Pc.phase])
  | ret =>
    refine hsame rfl rfl fun hd => ?_
    rename_i res _
    rcases res with ⟨⟨⟩⟩ | ⟨⟨⟩⟩ <;> simp [Frame.OnDuty, Frame.phase, Pc.phase] at hd
  | access _ => exact hsame rfl rfl id
  | eagain _ => exact hsame rfl rfl fun _ => .inr rfl
  | woken _ => exact hsame rfl rfl fun _ => .inr rfl
  | take hw =>
    -- the fast path clears the bit: the duty stays with the frames that have it
    rintro hne
    have hc := (hI hne).resolve_left (by rw [hw]; exact not_flagged_zero)
    exact .inr (hc.put_act hs (Finset.Subset.refl _)
      (by simp [Frame.OnDuty, Frame.phase, Pc.phase]))
  | takeContended _ =>
    obtain rfl := hown
    exact fun _ => .inl (HeldBy.flagged hvalid (.inr rfl) (or_waiters_and_waiters _))
  | setWaiters hw =>
    subst hw
    obtain ⟨u, ⟨hu, hheld⟩, -⟩ := exists_ownedBy hr hown.2
    exact fun _ => .inl (hheld.or_waiters.flagged hu (or_waiters_and_waiters _))
  | sleep hw =>
    subst hw
    have hne : s.shared.word ≠ 0 := fun h0 => hown.2 (by rw [h0]; decide)
    obtain ⟨u, ⟨hu, hheld⟩, -⟩ := exists_ownedBy hr hne
    exact fun _ => .inl (hheld.flagged hu hown.2)
  | spuriousWake =>
    exact fun _ => .inr ⟨t, carriedBy_top (Finset.notMem_erase _ _) (.inr rfl)⟩
  | loseAcquire =>
    obtain rfl := hown
    exact recheck_duty hI hs (not_queued hQ hs (by rintro _ ⟨⟩)) (hkeep _ _ hs rfl) hvalid
  | loseWaiters =>
    obtain ⟨rfl, -⟩ := hown
    exact recheck_duty hI hs (not_queued hQ hs (by rintro _ ⟨⟩)) (hkeep _ _ hs rfl) hvalid
  | load =>
    obtain rfl := hown
    exact recheck_duty hI hs (not_queued hQ hs (by rintro _ ⟨⟩)) (hkeep _ _ hs rfl) hvalid
  | drop =>
    obtain ⟨rfl, -, hheld⟩ := of_guard hr hs rfl
    rintro hne
    rcases hI hne with hw | hc
    · exact .inr ⟨_, carriedBy_top (not_queued hQ hs (by rintro _ ⟨⟩))
        (.inl (rawUnlock_wake hvalid hheld hw.2))⟩
    · exact .inr (hc.put_act hs (Finset.Subset.refl _)
        (by simp [Frame.OnDuty, Frame.phase, Pc.phase]))
  | wakeNone hq => exact fun hne => absurd hne (by simp [hq])
  | @wakeSome u _ hu =>
    -- the sleeper that was dequeued is awake inside the loop
    obtain ⟨tid, gs, fs₀, hsu⟩ := hQ u hu
    have hut : u ≠ t := by
      rintro rfl
      exact not_queued hQ hs (by rintro _ ⟨⟩) hu
    refine fun _ => .inr ⟨u, Finset.notMem_erase _ _, ⟨.waiting tid, gs⟩, ?_, .inr rfl⟩
    rw [State.put_stack_ne _ _ _ hut, hsu]
    simp

theorem duty_next {x : T} {ok : World T → Label Tid (Action T) → Prop} {s s' : World T}
    {l : Label Tid (Action T)} (hr : Reach (system x) ok s) (hI : Duty s)
    (hkeep : keepsDuty s l) (hn : InterruptStack.next (program T) s l = some s') :
    Duty s' := by
  obtain ⟨t, fs, g', fs', hs, hm, rfl⟩ := next_cases hn
  by_cases hl : ∃ a, l = .act t a
  · obtain ⟨a, rfl⟩ := hl
    cases hm with
    | act ha => exact duty_act hr hI hkeep hs ha
  · exact duty_quiet hI hs hm fun a ha => hl ⟨a, ha⟩

theorem duty_new (x : T) : Duty (new x) := fun h => absurd h Finset.not_nonempty_empty

/-- A frame inside the loop has no guard of its own thread, unless one was handed out. -/
theorem keepsDuty_of_noHandOut {x : T} {s : World T} (hr : Reach (system x) noHandOut s)
    (l : Label Tid (Action T)) : keepsDuty s l := by
  have hmain : ∀ t f fs, s.stack t = f :: fs → f.phase = .contended →
      s.shared.word &&& FUTEX_TID_MASK ≠ t := by
    intro t f fs hs hf hw
    have hplaced := placed_of_reach (callCode x) hr t
    rw [hs] at hplaced
    refine (holder_eq_iff hr (validTid_of_reach hr (t := t) (by simp [hs]))).mp hw ?_
    rw [guards, live, hs]
    exact hplaced.1.1 hf
  cases l with
  | act t b =>
    cases b with
    | exchange _ _ => exact fun f fs hs hf hw => absurd hw (hmain t f fs hs hf)
    | load => exact fun f fs hs hf hw => absurd hw (hmain t f fs hs hf)
    | _ => trivial
  | _ => trivial

theorem duty_of_reach {x : T} {s : World T} (h : Reach (system x) noHandOut s) : Duty s := by
  refine h.invariant ?_ ?_
  · rintro s rfl
    exact duty_new x
  · exact fun s l s' hr hI _ hn => duty_next hr hI (keepsDuty_of_noHandOut hr l) hn

/-- The thread that holds the lock is awake. -/
theorem holder_awake {x : T} {s : World T} (h : Reach (system x) noHandOut s)
    (hw : s.shared.word ≠ 0) : ∃ u, u ∉ s.shared.queue ∧ s.stack u ≠ [] := by
  obtain ⟨u, -, hu⟩ := exists_ownedBy h hw
  refine ⟨u, fun hq => hu ?_, fun he => hu (by rw [guards, live, he]; rfl)⟩
  obtain ⟨tid, gs, fs, hs⟩ := queued_of_reach h u hq
  have hplaced := placed_of_reach (callCode x) h u
  rw [hs] at hplaced
  rw [guards, live, hs]
  exact hplaced.1.1 rfl

/-- No wake-up is lost, and the sleepers are never alone: the last part says that not
every unfinished thread sleeps. -/
theorem futex_never_loses_wakeup {x : T} {s : World T} (h : Reach (system x) noHandOut s)
    {t : Tid} (ht : t ∈ s.shared.queue) :
    (∃ tid gs fs, s.stack t = ⟨.waiting tid, gs⟩ :: fs) ∧
    (s.shared.word &&& FUTEX_TID_MASK ≠ 0 ∧ s.shared.word &&& FUTEX_WAITERS ≠ 0 ∨
      (∃ u, u ∉ s.shared.queue ∧ ∃ f ∈ s.stack u, f.pc = .wake) ∨
      ∃ u, u ∉ s.shared.queue ∧ ∃ f ∈ s.stack u, f.phase = .contended) ∧
    ∃ u, u ∉ s.shared.queue ∧ s.stack u ≠ [] := by
  refine ⟨queued_of_reach h t ht, ?_⟩
  rcases duty_of_reach h ⟨t, ht⟩ with hw | ⟨u, hu, f, hf, hd⟩
  · refine ⟨.inl hw, holder_awake h ?_⟩
    intro h0
    rw [h0] at hw
    exact not_flagged_zero hw
  · refine ⟨.inr ?_, u, hu, List.ne_nil_of_mem hf⟩
    exact hd.imp (fun hd => ⟨u, hu, f, hf, hd⟩) fun hd => ⟨u, hu, f, hf, hd⟩

theorem futex_never_loses_wakeup_contention :
    ∃ s, run (system 5) (new 5) contention = some s ∧ 2 ∈ s.shared.queue ∧
      (∃ tid gs fs, s.stack 2 = ⟨.waiting tid, gs⟩ :: fs) ∧
      (s.shared.word &&& FUTEX_TID_MASK ≠ 0 ∧ s.shared.word &&& FUTEX_WAITERS ≠ 0 ∨
        (∃ u, u ∉ s.shared.queue ∧ ∃ f ∈ s.stack u, f.pc = .wake) ∨
        ∃ u, u ∉ s.shared.queue ∧ ∃ f ∈ s.stack u, f.phase = .contended) ∧
      ∃ u, u ∉ s.shared.queue ∧ s.stack u ≠ [] := by
  have hs : run (system 5) (new 5) contention = some _ := rfl
  have hr : Reach (system 5) noHandOut _ :=
    (Reach.initial rfl).run (by simp [contention, noHandOut]) hs
  exact ⟨_, hs, by decide, futex_never_loses_wakeup hr (by decide)⟩

end SignalCrates.FutexLock
