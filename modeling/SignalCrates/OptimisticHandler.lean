import SignalCrates.UsableLocks

/-!
# examples/optimistic_handler.rs

The handler does the thing under the lock if it can. If its own thread holds the lock it
sets `SIGNAL_DEFERRED`, which the normal code checks after each critical section. The
signal is blocked while its handler runs. Any number of threads run the normal code.
-/
namespace SignalCrates.OptimisticHandler
open TransitionSystem InterruptStack LockCall LockClient

/-- The calls of `lock`: by the handler, by the normal code, and by its loop. -/
inductive Site
  | handler
  | normal
  | loop
  deriving DecidableEq, Repr

inductive Pc
  | start
  | lock (c : Site)
  | locking (c : Site)
  | locked (c : Site)
  | did (c : Site)
  | unlocking (c : Site)
  | store
  | swap
  | done
  | panicked
  deriving DecidableEq, Repr

/-- `due` says that a handler has begun since the thing was last begun to be done. -/
structure Statics where
  signalDeferred : Bool
  due : Bool

inductive Step
  | normalCode
  | signalHandler
  | doTheThing
  | unlocked
  | store
  | swap

def step : Step → Statics → Pc → Option (Statics × Pc)
  | .normalCode, m, .start => some (m, .lock .normal)
  | .normalCode, m, .done => some (m, .lock .normal)
  | .signalHandler, m, .start => some ({ m with due := true }, .lock .handler)
  | .doTheThing, m, .locked .handler => some ({ m with due := false }, .did .handler)
  | .doTheThing, m, .locked .loop => some ({ m with due := false }, .did .loop)
  | .unlocked, m, .unlocking .handler => some (m, .done)
  | .unlocked, m, .unlocking _ => some (m, .swap)
  | .store, m, .store => some ({ m with signalDeferred := true }, .done)
  | .swap, m, .swap =>
    if m.signalDeferred then some ({ m with signalDeferred := false }, .lock .loop)
    else some (m, .done)
  | _, _, _ => none

/-- `signal_handler` and `normal_code`; the latter unwraps what `lock` returns. -/
def code : Client Statics Pc Step where
  entry := .start
  call
    | .lock c => some (.locking c)
    | _ => none
  granted
    | .locking c => .locked c
    | pc => pc
  refused
    | .locking .handler => .store
    | .locking _ => .panicked
    | pc => pc
  uses
    | .locked _ => true
    | .did _ => true
    | _ => false
  drop
    | .locked .normal => some (.unlocking .normal)
    | .did c => some (.unlocking c)
    | _ => none
  step := step
  returns
    | .start => true
    | .done => true
    | _ => false

def Pc.place : Pc → Place
  | .locking _ => .calling
  | .locked _ => .inside
  | .did _ => .inside
  | _ => .outside

/-- The function that the frame is in, by the call of `lock` that it has come to. -/
def Pc.site : Pc → Option Site
  | .lock c => some c
  | .locking c => some c
  | .locked c => some c
  | .did c => some c
  | .unlocking c => some c
  | .store => some .handler
  | .swap => some .loop
  | _ => none

/-- In the normal code: `SIGNAL_DEFERRED` will be checked once more. -/
def Pc.checks (pc : Pc) : Bool := pc.site = some .normal ∨ pc.site = some .loop

/-- The thing will be done, or it will be deferred. -/
def Pc.serves : Pc → Bool
  | .lock c => c ≠ .normal
  | .locking c => c ≠ .normal
  | .locked c => c ≠ .normal
  | .store => true
  | _ => false

/-- All that a step can do. -/
inductive Steps (m : Statics) : Step → Pc → Statics → Pc → Prop
  | normalCode {pc : Pc} (h : pc = .start ∨ pc = .done) : Steps m .normalCode pc m (.lock .normal)
  | signalHandler : Steps m .signalHandler .start { m with due := true } (.lock .handler)
  | doTheThing {c : Site} (h : c ≠ .normal) :
      Steps m .doTheThing (.locked c) { m with due := false } (.did c)
  | handled : Steps m .unlocked (.unlocking .handler) m .done
  | unlocked {c : Site} (h : c ≠ .handler) : Steps m .unlocked (.unlocking c) m .swap
  | store : Steps m .store .store { m with signalDeferred := true } .done
  | detect (h : m.signalDeferred = true) :
      Steps m .swap .swap { m with signalDeferred := false } (.lock .loop)
  | leave (h : m.signalDeferred = false) : Steps m .swap .swap m .done

theorem step_cases {b : Step} {m m' : Statics} {pc pc' : Pc} (h : step b m pc = some (m', pc')) :
    Steps m b pc m' pc' := by
  cases b with
  | normalCode =>
    cases pc <;> cases h
    · exact .normalCode (.inl rfl)
    · exact .normalCode (.inr rfl)
  | signalHandler =>
    cases pc <;> cases h
    exact .signalHandler
  | doTheThing =>
    cases pc with
    | locked c =>
      cases c <;> cases h
      · exact .doTheThing (by rintro ⟨⟩)
      · exact .doTheThing (by rintro ⟨⟩)
    | _ => cases h
  | unlocked =>
    cases pc with
    | unlocking c =>
      cases c <;> cases h
      · exact .handled
      · exact .unlocked (by rintro ⟨⟩)
      · exact .unlocked (by rintro ⟨⟩)
    | _ => cases h
  | store =>
    cases pc <;> cases h
    exact .store
  | swap =>
    cases pc <;> simp only [step, reduceCtorEq] at h
    split_ifs at h with hd <;> cases h
    · exact .detect hd
    · exact .leave (by simpa using hd)

theorem lawful : code.Lawful Pc.place where
  entry := rfl
  call k k' h := by
    cases k <;> simp [code] at h
    subst h
    exact ⟨rfl, rfl⟩
  granted k h := by
    cases k <;> first | rfl | cases h
  refused k h := by
    cases k with
    | locking c => cases c <;> rfl
    | _ => cases h
  drop k k' h := by
    cases k with
    | locked c =>
      cases c <;> simp [code] at h
      subst h
      exact ⟨rfl, rfl⟩
    | did c => cases h; exact ⟨rfl, rfl⟩
    | _ => cases h
  step b m k m' k' h := by
    have hs : Steps m b k m' k' := step_cases h
    clear h
    cases hs with
    | normalCode h => rcases h with rfl | rfl <;> rfl
    | _ => rfl

variable {ι S F A R : Type*} {L : Lock ι S F A R} {m m' : Statics} {f : Frame F Pc} {pc : Pc}

/-- A call and a drop leave the frame in its function. Only a refused call leads to the
store. -/
theorem lock_keeps {a : A} (h : Moves L code m f (.lock a : Action A Step) m' pc)
    (hr : L.phase f.lock = .refused → f.pc = .locking .handler) :
    m' = m ∧ pc.site = f.pc.site ∧ pc.serves = f.pc.serves ∧
      (pc = f.pc ∨ pc ≠ .panicked ∧ (pc = .store → L.phase f.lock = .refused)) := by
  cases h with
  | stay => exact ⟨rfl, rfl, rfl, .inl rfl⟩
  | call h =>
    cases hpc : f.pc <;> simp [hpc, code] at h
    subst h
    exact ⟨rfl, rfl, rfl, .inr ⟨by rintro ⟨⟩, by rintro ⟨⟩⟩⟩
  | granted _ =>
    cases f.pc with
    | locking c => exact ⟨rfl, rfl, rfl, .inr ⟨by rintro ⟨⟩, by rintro ⟨⟩⟩⟩
    | _ => exact ⟨rfl, rfl, rfl, .inl rfl⟩
  | refused h =>
    rw [hr h]
    exact ⟨rfl, rfl, rfl, .inr ⟨by rintro ⟨⟩, fun _ => h⟩⟩
  | drop h =>
    cases hpc : f.pc with
    | locked c =>
      cases c <;> simp [hpc, code] at h
      subst h
      exact ⟨rfl, rfl, rfl, .inr ⟨by rintro ⟨⟩, by rintro ⟨⟩⟩⟩
    | did c =>
      simp only [hpc, code, Option.some.injEq] at h
      subst h
      exact ⟨rfl, rfl, rfl, .inr ⟨by rintro ⟨⟩, by rintro ⟨⟩⟩⟩
    | _ => simp [hpc, code] at h

/-- A handler runs on top of the normal code of its thread, if it runs at all, and comes to
the store only while that code holds the lock. -/
def Nested (f : Frame F Pc) (below : List (Frame F Pc)) : Prop :=
  (f.pc.checks = true → below = []) ∧ (f.pc.site = some .handler → below.length = 1) ∧
    (f.pc = .store → ∃ f₀ ∈ below, f₀.pc.checks = true) ∧ f.pc ≠ .panicked

theorem checks_of_site {pc : Pc} {c : Site} (h : pc.site = some c) (hc : c ≠ .handler) :
    pc.checks = true := by
  cases c <;> simp_all [Pc.checks]

theorem site_of_place {pc : Pc} (h : pc.place ≠ .outside) : ∃ c, pc.site = some c := by
  cases pc <;> first | exact ⟨_, rfl⟩ | exact absurd rfl h

variable [DecidableEq ι]

/-- The signal is blocked in its handler, the handlers run `signal_handler` and the threads
`normal_code`. -/
def obeys (s : World ι S F Statics Pc) : Label ι (Action A Step) → Prop
  | .signal t => (s.stack t).length = 1
  | .act t (.own .normalCode) => (s.stack t).length = 1
  | .act t (.own .signalHandler) => (s.stack t).length = 2
  | _ => True

def system (L : Lock ι S F A R) (locks : State ι S F → Prop) :
    TransitionSystem.System (World ι S F Statics Pc) (Label ι (Action A Step)) :=
  ⟨initial locks ⟨false, false⟩, InterruptStack.next (program L code)⟩

omit [DecidableEq ι] in
/-- A step of its own takes a frame to the end of its function, or further in it, or into
the function that it may run. -/
theorem nested_own {s : World ι S F Statics Pc} {t : ι} {b : Step} {f f' : Frame F Pc}
    {fs : List (Frame F Pc)} (h : Steps m b f.pc m' f'.pc) (hs : s.stack t = f :: fs)
    (hl : obeys s (.act t (.own b : Action A Step))) (hf : Nested f fs) : Nested f' fs := by
  obtain ⟨k, pc⟩ := f
  obtain ⟨k', pc'⟩ := f'
  obtain ⟨hchecks, hhandler, -, -⟩ := hf
  cases h with
  | normalCode _ =>
    have hlen : (s.stack t).length = 1 := hl
    rw [hs] at hlen
    exact ⟨fun _ => by simpa using hlen, by rintro ⟨⟩, by rintro ⟨⟩, by rintro ⟨⟩⟩
  | signalHandler =>
    have hlen : (s.stack t).length = 2 := hl
    rw [hs] at hlen
    exact ⟨by rintro ⟨⟩, fun _ => by simpa using hlen, by rintro ⟨⟩, by rintro ⟨⟩⟩
  | doTheThing _ => exact ⟨hchecks, hhandler, by rintro ⟨⟩, by rintro ⟨⟩⟩
  | unlocked hc =>
    exact ⟨fun _ => hchecks (checks_of_site rfl hc), by rintro ⟨⟩, by rintro ⟨⟩, by rintro ⟨⟩⟩
  | detect _ => exact ⟨fun _ => hchecks rfl, by rintro ⟨⟩, by rintro ⟨⟩, by rintro ⟨⟩⟩
  | handled => exact ⟨by rintro ⟨⟩, by rintro ⟨⟩, by rintro ⟨⟩, by rintro ⟨⟩⟩
  | store => exact ⟨by rintro ⟨⟩, by rintro ⟨⟩, by rintro ⟨⟩, by rintro ⟨⟩⟩
  | leave _ => exact ⟨by rintro ⟨⟩, by rintro ⟨⟩, by rintro ⟨⟩, by rintro ⟨⟩⟩

section Reached
variable {locks : State ι S F → Prop} {ok : State ι S F → Label ι A → Prop}
  {s s' : World ι S F Statics Pc}

/-- The normal code is never refused, and the handler only above normal code that holds the
lock. -/
theorem of_refused (hL : L.Usable locks ok) (h : Reach (system L locks) obeys s) {t : ι}
    {below : List (Frame F Pc)} (hs : s.stack t = f :: below) (hn : Layered Nested (f :: below))
    (hf : L.phase f.lock = .refused) :
    f.pc = .locking .handler ∧ ∃ f₀ ∈ below, f₀.pc.checks = true := by
  obtain ⟨f₀, hf₀, hplace⟩ := exists_holder hL lawful h hs hf
  have hmatched := matched_of_reach hL lawful h t f (by simp [hs])
  obtain ⟨hcalling, -⟩ := hmatched.calling hL (by simp [hf])
  obtain ⟨⟨hchecks, hhandler, -, -⟩, hbelow⟩ := hn
  obtain ⟨c, hc⟩ : ∃ c, f.pc = .locking c := by
    cases hpc : f.pc <;> simp [hpc, Pc.place] at hcalling
    exact ⟨_, rfl⟩
  have hsite : f.pc.site = some c := by rw [hc]; rfl
  by_cases hne : c = .handler
  · subst hne
    obtain ⟨f₁, rfl⟩ := List.length_eq_one_iff.mp (hhandler hsite)
    obtain rfl := List.mem_singleton.mp hf₀
    obtain ⟨c₀, hc₀⟩ := site_of_place hplace
    refine ⟨hc, f₀, by simp, checks_of_site hc₀ ?_⟩
    rintro rfl
    exact absurd (hbelow.1.2.1 hc₀) (by simp)
  · rw [hchecks (checks_of_site hsite hne)] at hf₀
    cases hf₀

theorem nested_of_reach (hL : L.Usable locks ok) (h : Reach (system L locks) obeys s) (t : ι) :
    Layered Nested (s.stack t) := by
  refine h.invariant (I := fun s => ∀ t, Layered Nested (s.stack t)) ?_ ?_ t
  · intro s hs t
    rw [hs.2.2 t]
    trivial
  · intro s l s' hr hI hl hn
    refine layered_next hn hI ?_ (fun _ _ _ h => h) ?_ (by rintro t f f₀ fs f' f₀' - ⟨⟩)
    · exact fun _ _ => ⟨by rintro ⟨⟩, by rintro ⟨⟩, by rintro ⟨⟩, by rintro ⟨⟩⟩
    · rintro t a f fs g' f' rfl hs ha ⟨hchecks, hhandler, hstore, hpanicked⟩
      have hIt := hI t
      rw [hs] at hIt
      have hmoves := (act_cases hL ha).moves
      cases a with
      | lock a =>
        obtain ⟨-, hsite, -, hpc⟩ :=
          lock_keeps hmoves fun hf => (of_refused hL hr hs hIt hf).1
        rw [Nested, Pc.checks, hsite]
        refine ⟨hchecks, hhandler, ?_, ?_⟩
        · rcases hpc with hpc | ⟨-, hpc⟩
          · rwa [hpc]
          · exact fun hst => (of_refused hL hr hs hIt (hpc hst)).2
        · rcases hpc with hpc | ⟨hpc, -⟩
          · rwa [hpc]
          · exact hpc
      | own b =>
        have hstep : Steps s.shared.mem b f.pc g'.mem f'.pc := by
          cases hmoves with
          | own h => exact step_cases h
        exact nested_own hstep hs hl ⟨hchecks, hhandler, hstore, hpanicked⟩

/-- Some frame is at a point with the property. -/
def Somewhere (p : Pc → Bool) (s : World ι S F Statics Pc) : Prop :=
  ∃ t, ∃ f ∈ s.stack t, p f.pc = true

omit [DecidableEq ι] in
theorem Somewhere.of_mem {p : Pc → Bool} {t : ι} {f : Frame F Pc} (hf : f ∈ s.stack t)
    (hp : p f.pc = true) : Somewhere p s := ⟨t, f, hf, hp⟩

theorem Somewhere.put {p : Pc → Bool} {t : ι} {fs fs' : List (Frame F Pc)} (h : Somewhere p s)
    (hs : s.stack t = fs) (hp : (∃ f ∈ fs, p f.pc = true) → ∃ f ∈ fs', p f.pc = true)
    (g : Shared S Statics) : Somewhere p (s.put t g fs') := by
  refine exists_frame (t := t) (fun u hu => s.put_stack_ne g _ hu) (fun _ h => h) ?_ h
  rwa [State.put_stack_self, hs]

omit [DecidableEq ι] in
/-- A frame that moves keeps a property that its new point has if the old one has it. -/
theorem exists_move {p : Pc → Bool} {f f' : Frame F Pc} {fs : List (Frame F Pc)}
    (hp : p f.pc = true → p f'.pc = true) (h : ∃ k ∈ f :: fs, p k.pc = true) :
    ∃ k ∈ f' :: fs, p k.pc = true := by
  obtain ⟨k, hk, hpk⟩ := h
  rcases List.mem_cons.mp hk with rfl | hk
  · exact ⟨f', by simp, hp hpk⟩
  · exact ⟨k, by simp [hk], hpk⟩

/-- A deferred signal is found by normal code that has yet to check, and nothing that a
handler asked for is forgotten. -/
structure Kept (s : World ι S F Statics Pc) : Prop where
  deferred : s.shared.mem.signalDeferred = true → Somewhere Pc.checks s
  due : s.shared.mem.due = true →
    s.shared.mem.signalDeferred = true ∨ Somewhere Pc.serves s

theorem kept_own {b : Step} {t : ι} {f' : Frame F Pc} {fs : List (Frame F Pc)}
    {g : Shared S Statics} (h : Steps s.shared.mem b f.pc g.mem f'.pc) (hs : s.stack t = f :: fs)
    (hn : Nested f fs) (hk : Kept s) : Kept (s.put t g (f' :: fs)) := by
  have htop : f' ∈ (s.put t g (f' :: fs)).stack t := by simp
  have hput {p : Pc → Bool} (hp : p f.pc = true → p f'.pc = true) (h : Somewhere p s) :
      Somewhere p (s.put t g (f' :: fs)) := h.put hs (exists_move hp) g
  obtain ⟨k, pc⟩ := f
  obtain ⟨k', pc'⟩ := f'
  obtain ⟨g, mem⟩ := g
  cases h with
  | normalCode hpc =>
    refine ⟨fun hd => .of_mem htop rfl, fun hdue => (hk.due hdue).imp_right (hput ?_)⟩
    rcases hpc with rfl | rfl <;> rintro ⟨⟩
  | signalHandler =>
    exact ⟨fun hd => hput (by rintro ⟨⟩) (hk.deferred hd), fun _ => .inr (.of_mem htop rfl)⟩
  | doTheThing _ => exact ⟨fun hd => hput id (hk.deferred hd), by rintro ⟨⟩⟩
  | handled =>
    exact ⟨fun hd => hput (by rintro ⟨⟩) (hk.deferred hd),
      fun hdue => (hk.due hdue).imp_right (hput (by rintro ⟨⟩))⟩
  | unlocked _ =>
    exact ⟨fun _ => .of_mem htop rfl, fun hdue => (hk.due hdue).imp_right (hput (by rintro ⟨⟩))⟩
  | store =>
    obtain ⟨f₀, hf₀, hchecks⟩ := hn.2.2.1 rfl
    exact ⟨fun _ => .of_mem (t := t) (f := f₀) (by simp [hf₀]) hchecks, fun _ => .inl rfl⟩
  | detect _ => exact ⟨by rintro ⟨⟩, fun _ => .inr (.of_mem htop rfl)⟩
  | leave hd =>
    refine ⟨fun hd' => absurd (hd.symm.trans hd') (by simp), fun hdue => ?_⟩
    exact (hk.due hdue).imp_right (hput (by rintro ⟨⟩))

/-- What keeps the memory and the functions of the frames keeps what is due. -/
theorem Kept.put {t : ι} {g : Shared S Statics} {fs fs' : List (Frame F Pc)} (hk : Kept s)
    (hs : s.stack t = fs) (hmem : g.mem = s.shared.mem)
    (hchecks : (∃ f ∈ fs, f.pc.checks = true) → ∃ f ∈ fs', f.pc.checks = true)
    (hserves : (∃ f ∈ fs, f.pc.serves = true) → ∃ f ∈ fs', f.pc.serves = true) :
    Kept (s.put t g fs') where
  deferred hd := by
    rw [State.put_shared, hmem] at hd
    exact (hk.deferred hd).put hs hchecks g
  due hd := by
    rw [State.put_shared, hmem] at hd ⊢
    exact (hk.due hd).imp_right fun h => h.put hs hserves g

theorem kept_of_reach (hL : L.Usable locks ok) (h : Reach (system L locks) obeys s) : Kept s := by
  refine h.invariant ?_ ?_
  · rintro s ⟨-, hmem, -⟩
    exact ⟨by rw [hmem]; rintro ⟨⟩, by rw [hmem]; rintro ⟨⟩⟩
  · intro s l s' hr hk hl hn
    have hnested := nested_of_reach hL hr
    obtain ⟨t, fs, g', fs', hs, hm, rfl⟩ := next_cases hn
    cases hm with
    | spawn _ => exact hk.put hs rfl (by simp) (by simp)
    | signal =>
      have hdeliver {p : Pc → Bool} {f f' e : Frame F Pc} {fs : List (Frame F Pc)}
          (hp : f'.pc = f.pc) (h : ∃ k ∈ f :: fs, p k.pc = true) :
          ∃ k ∈ e :: f' :: fs, p k.pc = true := by
        have hmove : ∃ k ∈ f' :: fs, p k.pc = true := exists_move (by rw [hp]; exact id) h
        obtain ⟨k, hk, hpk⟩ := hmove
        exact ⟨k, List.mem_cons_of_mem _ hk, hpk⟩
      exact hk.put hs rfl (hdeliver rfl) (hdeliver rfl)
    | @act a _ _ f f' fs ha =>
      have hmoves := (act_cases hL ha).moves
      have hIt := hnested t
      rw [hs] at hIt
      cases a with
      | lock a =>
        obtain ⟨hmem, hsite, hserves, -⟩ :=
          lock_keeps hmoves fun hf => (of_refused hL hr hs hIt hf).1
        refine hk.put hs hmem (exists_move ?_) (exists_move ?_)
        · rw [Pc.checks, Pc.checks, hsite]
          exact id
        · rw [hserves]
          exact id
      | own b =>
        have hstep : Steps s.shared.mem b f.pc g'.mem f'.pc := by
          cases hmoves with
          | own h => exact step_cases h
        exact kept_own hstep hs hIt.1 hk
    | finish hret =>
      have hdone := (Bool.and_eq_true_iff.mp hret).2
      have hfinish {p : Pc → Bool} {f : Frame F Pc} {fs : List (Frame F Pc)} (hp : p f.pc = false)
          (h : ∃ k ∈ f :: fs, p k.pc = true) : ∃ k ∈ fs, p k.pc = true := by
        obtain ⟨k, hk, hpk⟩ := h
        rcases List.mem_cons.mp hk with rfl | hk
        · exact absurd (hp.symm.trans hpk) (by simp)
        · exact ⟨k, hk, hpk⟩
      have hout {pc : Pc} (h : code.returns pc = true) : pc.checks = false ∧ pc.serves = false := by
        cases pc <;> first | exact ⟨rfl, rfl⟩ | cases h
      exact hk.put hs rfl (hfinish (hout hdone).1) (hfinish (hout hdone).2)
    | handOut hh => cases hh

/-- No `unwrap` fails, and once no function is running nothing is left to be done. -/
structure NothingLost (s : World ι S F Statics Pc) : Prop where
  unwrap : ∀ t, ∀ f ∈ s.stack t, f.pc ≠ .panicked
  kept : Kept s
  served : (∀ t, ∀ f ∈ s.stack t, f.pc.site = none) →
    s.shared.mem.signalDeferred = false ∧ s.shared.mem.due = false

theorem nothingLost (hL : L.Usable locks ok) (h : Reach (system L locks) obeys s) :
    NothingLost s := by
  have hk := kept_of_reach hL h
  refine ⟨fun t f hf => ?_, hk, fun hsite => ?_⟩
  · obtain ⟨above, below, hs⟩ := List.append_of_mem hf
    have hn := nested_of_reach hL h t
    rw [hs] at hn
    exact hn.at.2.2.2
  · have hnone {p : Pc → Bool} (hp : ∀ pc, p pc = true → pc.site ≠ none) : ¬ Somewhere p s := by
      rintro ⟨t, f, hf, hpf⟩
      exact hp _ hpf (hsite t f hf)
    have hchecks : ¬ Somewhere Pc.checks s := by
      refine hnone fun pc h => ?_
      cases pc <;> first | exact Option.some_ne_none _ | cases h
    have hserves : ¬ Somewhere Pc.serves s := by
      refine hnone fun pc h => ?_
      cases pc <;> first | exact Option.some_ne_none _ | cases h
    have hd : s.shared.mem.signalDeferred = false := by
      simpa using fun hd => hchecks (hk.deferred hd)
    refine ⟨hd, ?_⟩
    by_contra hdue
    rcases hk.due (by simpa using hdue) with h | h
    · exact absurd (hd.symm.trans h) (by simp)
    · exact hserves h

end Reached

/-- The example over both implementations of the lock. -/
theorem optimistic_handler_loses_nothing {T : Type*} (x : T) (capacity : ℕ) :
    (∀ s, Reach (system (FutexLock.asLock T) (FutexLock.system x).initial) obeys s →
      NothingLost s) ∧
    ∀ s, Reach (system (PipeLock.asLock T capacity) (PipeLock.system x capacity).initial) obeys s →
      NothingLost s :=
  ⟨fun _ => nothingLost (FutexLock.usable x), fun _ => nothingLost (PipeLock.usable x capacity)⟩

abbrev FutexWorld :=
  World SignalLock.Tid (FutexLock.Shared ℕ) (FutexLock.Frame ℕ) Statics Pc

/-- The process before `main`. -/
def newWorld : FutexWorld := ⟨⟨(FutexLock.new 5).shared, ⟨false, false⟩⟩, fun _ => []⟩

/-- A call of `lock` that does not wait. -/
def callsLock : List (Label SignalLock.Tid (Action (FutexLock.Action ℕ) Step)) :=
  [.act 1 (.lock .lock), .act 1 (.lock (.exchange false id)), .act 1 (.lock .ret)]

def defers : List (Label SignalLock.Tid (Action (FutexLock.Action ℕ) Step)) :=
  [.act 1 (.own .store), .finish 1]

/-- The signal is raised in the critical section of the normal code, and its handler defers
it. -/
def raisedInside : List (Label SignalLock.Tid (Action (FutexLock.Action ℕ) Step)) :=
  (.spawn 1 :: .act 1 (.own .normalCode) :: callsLock) ++
    (.signal 1 :: .act 1 (.own .signalHandler) :: callsLock) ++ defers

theorem optimistic_handler_loses_nothing_inside :
    ∃ s, run (system (FutexLock.asLock ℕ) (FutexLock.system 5).initial) newWorld
        raisedInside = some s ∧
      s.shared.mem.signalDeferred = true ∧ NothingLost s := by
  obtain ⟨s, hs, hd⟩ : ∃ s, run (system (FutexLock.asLock ℕ) (FutexLock.system 5).initial) newWorld
        raisedInside = some s ∧
      s.shared.mem.signalDeferred = true := ⟨_, rfl, rfl⟩
  have hcalls : ∀ s : FutexWorld, ∀ l ∈ callsLock, obeys s l := by
    intro s l hl
    simp only [callsLock, List.mem_cons, List.not_mem_nil, or_false] at hl
    rcases hl with rfl | rfl | rfl <;> trivial
  have hdefers : ∀ s : FutexWorld, ∀ l ∈ defers, obeys s l := by
    intro s l hl
    simp only [defers, List.mem_cons, List.not_mem_nil, or_false] at hl
    rcases hl with rfl | rfl <;> trivial
  have hinitial : (system (FutexLock.asLock ℕ) (FutexLock.system 5).initial).initial
      newWorld := ⟨rfl, rfl, fun _ => rfl⟩
  have hspawn : ∀ s', run (system (FutexLock.asLock ℕ) (FutexLock.system 5).initial) newWorld
      [.spawn 1] = some s' →
      Reach (system (FutexLock.asLock ℕ) (FutexLock.system 5).initial) obeys s' := by
    rintro s ⟨⟩
    exact .step (.initial hinitial) (a := .spawn 1) trivial rfl
  have hinside := reach_append (reach_snoc hspawn (.act 1 (.own .normalCode)) (by rintro s ⟨⟩; rfl))
    callsLock hcalls
  have hhandler := reach_snoc (reach_snoc hinside (.signal 1) (by rintro s ⟨⟩; rfl))
    (.act 1 (.own .signalHandler)) (by rintro s ⟨⟩; rfl)
  have hr := reach_append (reach_append hhandler callsLock hcalls) defers hdefers s hs
  exact ⟨s, hs, hd, (optimistic_handler_loses_nothing 5 1).1 s hr⟩

end SignalCrates.OptimisticHandler
