import SignalCrates.SigbusHandler

/-!
# What guards report

Between its stores the handler has reported a fault in part. The fields of a live guard
are those of the last fault reported in full, overwritten by the stores made so far.
-/
namespace SignalCrates.Mmapcatch
open TransitionSystem

def Guard.isErr (g : Guard) (heap : StateId → State) : Bool := (heap g.state).err

def Guard.errAddr (g : Guard) (heap : StateId → State) : Usize := (heap g.state).errAddr

def Guard.fixAddr (g : Guard) (heap : StateId → State) : Usize := (heap g.state).fixAddr

def Guard.siCode (g : Guard) (heap : StateId → State) : CInt := (heap g.state).siCode

/-- A run of `handle_sigbus` that holds the lock of `ROOT`, with the stores it has left. -/
structure Handler where
  fix : Fix
  stores : List Store

/-- `log` lists the faults attributed to a state since it was allocated, the last first, and
`seen` tells whether `is_err` has returned `true` since. -/
structure World where
  registry : Registry
  handler : Option Handler
  log : StateId → List SigbusInfo
  seen : StateId → Bool

inductive Event
  | client (l : Label)
  | fault (kernel : Kernel) (info : Siginfo)
  | store
  | unlock
  | isErr (i : ℕ)

/-- No fault is attributed to a new allocation yet. -/
def World.forget (w : World) : Label → World
  | .registerMmap _ _ _ _ state =>
    { w with log := Function.update w.log state [], seen := Function.update w.seen state false }
  | _ => w

/-- The lock is held and the replacement is made. -/
def World.attribute (w : World) (f : Fix) : World :=
  let id := f.mapping.state
  { w with
    handler := some ⟨f, f.stores⟩
    log := Function.update w.log id (f.info :: w.log id) }

def World.store (w : World) (f : Fix) (st : Store) (rest : List Store) : World :=
  let id := f.mapping.state
  { w with
    registry := { w.registry with
      heap := Function.update w.registry.heap id ((w.registry.heap id).store st) }
    handler := some ⟨f, rest⟩ }

/-- A call of `is_err`. -/
def World.observe (w : World) (g : Guard) : World :=
  { w with seen := Function.update w.seen g.state (w.seen g.state || g.isErr w.registry.heap) }

/-- Critical sections exclude each other; a process that aborts has no next state. -/
def World.next (w : World) : Event → Option World
  | .client l =>
    match w.handler with
    | some _ => none
    | none => (w.registry.next l).map fun r => { w.forget l with registry := r }
  | .fault kernel info =>
    match w.handler, handleSigbus kernel info w.registry.root with
    | none, .ok f => some (w.attribute f)
    | _, _ => none
  | .store =>
    match w.handler with
    | some ⟨f, st :: rest⟩ => some (w.store f st rest)
    | _ => none
  | .unlock =>
    match w.handler with
    | some ⟨_, []⟩ => some { w with handler := none }
    | _ => none
  | .isErr i => w.registry.live[i]?.map fun reg => w.observe reg.guard

def process : System World Event where
  initial w := w.registry.root = none ∧ w.registry.live = [] ∧ w.handler = none
  next := World.next

/-- Runs that register page-aligned ranges that fit, on a kernel that obeys. -/
def contract (p : PageSize) (_ : World) : Event → Prop
  | .client (.registerMmap _ addr len _ _) => Fits addr len ∧ addr ≠ 0 ∧ p.size ∣ addr.toNat
  | .fault kernel _ => kernel.Obeys p
  | _ => True

/-- The fields after a list of faults, the last first. -/
def reported (p : PageSize) : List SigbusInfo → State
  | [] => State.new
  | f :: _ => ⟨true, f.addr, fixStart p.bytes f.addr, f.siCode⟩

/-- The stores into the state that a running handler has left. -/
def World.storesLeft (w : World) (id : StateId) : List Store :=
  match w.handler with
  | some h => if h.fix.mapping.state = id then h.stores else []
  | none => []

/-- The faults whose four stores are all made, the last first. -/
def World.completed (w : World) (id : StateId) : List SigbusInfo :=
  if w.storesLeft id = [] then w.log id else (w.log id).tail

/-- The last completed fault and what came after it. -/
def World.recent (w : World) (id : StateId) : List SigbusInfo :=
  if w.storesLeft id = [] then (w.log id).take 1 else (w.log id).take 2

structure World.Sound (p : PageSize) (w : World) : Prop where
  registry : w.registry.Sound
  aligned : ∀ reg ∈ w.registry.live, reg.guard.addr ≠ 0 ∧ p.size ∣ reg.guard.addr.toNat
  attributed : ∀ h, w.handler = some h → ∃ reg ∈ w.registry.live,
    h.fix.mapping = reg.entry.2 ∧ h.fix.info.addr.toNat ∈ reg.range
  fixed : ∀ h, w.handler = some h → h.fix.fixStart = fixStart p.bytes h.fix.info.addr
  settled : ∀ reg ∈ w.registry.live, w.storesLeft reg.guard.state = [] →
    w.registry.heap reg.guard.state = reported p (w.log reg.guard.state)
  stored : ∀ h, w.handler = some h → ∃ done older, h.fix.stores = done ++ h.stores ∧
    w.log h.fix.mapping.state = h.fix.info :: older ∧
    w.registry.heap h.fix.mapping.state = done.foldl State.store (reported p older)
  seen : ∀ reg ∈ w.registry.live, w.seen reg.guard.state = true →
    reg.guard.isErr w.registry.heap = true

/-- The four stores overwrite every field. -/
theorem Fix.foldl_stores {p : PageSize} {f : Fix}
    (hf : f.fixStart = Mmapcatch.fixStart p.bytes f.info.addr)
    (s : State) (log : List SigbusInfo) :
    f.stores.foldl State.store s = reported p (f.info :: log) := by
  rw [reported, ← hf]
  rfl

section Registry
variable {w w' : Registry}

theorem Registry.Sound.eq_of_state (h : w.Sound) {reg reg' : Registration} (hm : reg ∈ w.live)
    (hm' : reg' ∈ w.live) (hs : reg.guard.state = reg'.guard.state) : reg = reg' :=
  List.inj_on_of_nodup_map h.states hm hm' hs

theorem Registry.mem_arcs {reg : Registration} (hm : reg ∈ w.live) : reg.guard.state ∈ w.arcs :=
  List.mem_append_right _ (List.mem_map_of_mem hm)

/-- A client's call drops guards, or it registers one. -/
theorem Registry.Sound.next_cases (h : w.Sound) {l : Label} (hn : w.next l = some w') :
    w'.live ⊆ w.live ∧ w'.heap = w.heap ∨
    ∃ created addr len prot state, l = .registerMmap created addr len prot state ∧
      state ∉ w.arcs ∧ w'.live = ⟨⟨addr, state⟩, len, prot⟩ :: w.live ∧
      w'.heap = Function.update w.heap state State.new := by
  cases l with
  | init created =>
    cases hn
    left
    unfold Registry.init
    cases Mmapcatch.getOrInit created w.root <;> exact ⟨fun _ hm => hm, rfl⟩
  | registerMmap created addr len prot state =>
    simp only [Registry.next] at hn
    split_ifs at hn with hfresh
    cases hn
    rcases h.registerMmap_cases created addr len prot state with
      ⟨e, he, -⟩ | ⟨r, m, -, -, he⟩ | ⟨r, -, -, he⟩
    · rw [he]
      exact .inl ⟨fun _ hm => hm, rfl⟩
    · rw [he]
      exact .inl ⟨fun _ hm => hm, rfl⟩
    · rw [he]
      exact .inr ⟨_, _, _, _, _, rfl, hfresh, rfl, rfl⟩
  | drop created i =>
    simp only [Registry.next, Registry.drop, Option.map_map, Option.map_eq_some_iff] at hn
    obtain ⟨reg, -, rfl⟩ := hn
    exact .inl ⟨List.eraseIdx_subset, rfl⟩

end Registry

section Steps
variable {p : PageSize} {w w' : World}

theorem World.storesLeft_none {id : StateId} (h : w.handler = none) : w.storesLeft id = [] := by
  rw [storesLeft, h]

theorem World.storesLeft_some {hd : Handler} (h : w.handler = some hd) (id : StateId) :
    w.storesLeft id = if hd.fix.mapping.state = id then hd.stores else [] := by
  rw [storesLeft, h]

theorem fits_of_contract {l : Label} (hl : contract p w (.client l)) : fits w.registry l := by
  cases l with
  | registerMmap created addr len prot state => exact hl.1
  | _ => trivial

/-- A new allocation is none of those that live guards refer to. -/
theorem World.forget_live {l : Label} {r : Registry} (hn : w.registry.next l = some r)
    {reg : Registration} (hm : reg ∈ w.registry.live) :
    (w.forget l).log reg.guard.state = w.log reg.guard.state ∧
      (w.forget l).seen reg.guard.state = w.seen reg.guard.state := by
  cases l with
  | registerMmap created addr len prot state =>
    simp only [Registry.next] at hn
    split_ifs at hn with hfresh
    have hne : reg.guard.state ≠ state := by
      rintro rfl
      exact hfresh (Registry.mem_arcs hm)
    exact ⟨Function.update_of_ne hne _ _, Function.update_of_ne hne _ _⟩
  | _ => exact ⟨rfl, rfl⟩

/-- A guard that is live after a client's call was live before or has nothing reported. -/
theorem World.Sound.client_live (h : w.Sound p) {l : Label} {r : Registry}
    (hl : contract p w (.client l)) (hn : w.registry.next l = some r) {reg : Registration}
    (hm : reg ∈ r.live) :
    reg ∈ w.registry.live ∧ r.heap reg.guard.state = w.registry.heap reg.guard.state ∨
    reg ∉ w.registry.live ∧ (reg.guard.addr ≠ 0 ∧ p.size ∣ reg.guard.addr.toNat) ∧
      r.heap reg.guard.state = State.new ∧ (w.forget l).log reg.guard.state = [] ∧
      (w.forget l).seen reg.guard.state = false := by
  rcases h.registry.next_cases hn with
    ⟨hlive, hheap⟩ | ⟨created, addr, len, prot, state, rfl, hfresh, hlive, hheap⟩
  · exact .inl ⟨hlive hm, by rw [hheap]⟩
  · rw [hlive] at hm
    rcases List.mem_cons.mp hm with rfl | hold
    · have hnew : ⟨⟨addr, state⟩, len, prot⟩ ∉ w.registry.live := fun hold =>
        hfresh (Registry.mem_arcs hold)
      rw [hheap]
      exact .inr ⟨hnew, hl.2, Function.update_self _ _ _, Function.update_self _ _ _,
        Function.update_self _ _ _⟩
    · have hne : reg.guard.state ≠ state := by
        rintro rfl
        exact hfresh (Registry.mem_arcs hold)
      rw [hheap]
      exact .inl ⟨hold, Function.update_of_ne hne _ _⟩

theorem World.Sound.client (h : w.Sound p) {l : Label} {r : Registry}
    (hl : contract p w (.client l)) (hnone : w.handler = none) (hn : w.registry.next l = some r) :
    World.Sound p { w.forget l with registry := r } := by
  have hhandler : (w.forget l).handler = none := by
    cases l <;> exact hnone
  exact
    { registry := sound_next h.registry (fits_of_contract hl) hn
      aligned := fun reg hm => by
        rcases h.client_live hl hn hm with ⟨hm, -⟩ | ⟨-, hnew, -⟩
        · exact h.aligned reg hm
        · exact hnew
      attributed := fun hd hs => by
        rw [hhandler] at hs
        cases hs
      fixed := fun hd hs => by
        rw [hhandler] at hs
        cases hs
      settled := fun reg hm _ => by
        rcases h.client_live hl hn hm with ⟨hm, hheap⟩ | ⟨-, -, hheap, hlog, -⟩
        · rw [hheap, (forget_live hn hm).1]
          exact h.settled reg hm (storesLeft_none hnone)
        · rw [hheap, hlog]
          rfl
      stored := fun hd hs => by
        rw [hhandler] at hs
        cases hs
      seen := fun reg hm hs => by
        rcases h.client_live hl hn hm with ⟨hm, hheap⟩ | ⟨-, -, -, -, hseen⟩
        · rw [(forget_live hn hm).2] at hs
          rw [Guard.isErr, hheap]
          exact h.seen reg hm hs
        · rw [hseen] at hs
          cases hs }

/-- The handler attributes a fault to the guard in whose range it lies. -/
theorem World.Sound.handleSigbus_ok (h : w.Sound p) {kernel : Kernel} {info : Siginfo}
    {sb : SigbusInfo} (hk : kernel.Obeys p) (hp : parseSigbus info = some sb) {reg : Registration}
    (hm : reg ∈ w.registry.live) (ha : sb.addr.toNat ∈ reg.range) :
    ∃ f, handleSigbus kernel info w.registry.root = .ok f ∧ f.mapping = reg.entry.2 := by
  have hmem : reg.entry ∈ w.registry.entries :=
    h.registry.guards.mem_iff.mpr (List.mem_map_of_mem hm)
  cases hroot : w.registry.root with
  | none =>
    rw [Registry.entries_none hroot] at hmem
    cases hmem
  | some r =>
    rw [Registry.entries_some hroot] at hmem
    obtain ⟨hne, hdvd⟩ := h.aligned reg hm
    exact ⟨_, (h.registry.root r hroot).handleSigbus_ok hmem hne hdvd hk hp ha, rfl⟩

theorem World.Sound.of_handleSigbus (h : w.Sound p) {kernel : Kernel} {info : Siginfo} {f : Fix}
    (hf : handleSigbus kernel info w.registry.root = .ok f) :
    parseSigbus info = some f.info ∧ f.fixStart = fixStart kernel.sysconf f.info.addr ∧
      ∃ reg ∈ w.registry.live, f.mapping = reg.entry.2 ∧ f.info.addr.toNat ∈ reg.range := by
  obtain ⟨hp, ⟨r, hroot, hlookup⟩, hfix, -⟩ := Mmapcatch.of_handleSigbus hf
  obtain ⟨e, he, hme, ha⟩ := (h.registry.root r hroot).lookupAddr_eq_some_iff.mp hlookup
  rw [← Registry.entries_some hroot, h.registry.guards.mem_iff] at he
  obtain ⟨reg, hm, rfl⟩ := List.mem_map.mp he
  rw [← hme] at ha
  exact ⟨hp, hfix, reg, hm, hme.symm, ha⟩

theorem World.Sound.attribute (h : w.Sound p) {kernel : Kernel} {info : Siginfo} {f : Fix}
    (hk : kernel.Obeys p) (hnone : w.handler = none)
    (hf : handleSigbus kernel info w.registry.root = .ok f) : (w.attribute f).Sound p := by
  obtain ⟨-, hfix, reg, hm, hmapping, ha⟩ := h.of_handleSigbus hf
  exact
    { registry := h.registry
      aligned := h.aligned
      attributed := by
        rintro _ ⟨⟩
        exact ⟨reg, hm, hmapping, ha⟩
      fixed := by
        rintro _ ⟨⟩
        rw [hfix, hk.sysconf]
      settled := fun reg' hm' hleft => by
        have hne : reg'.guard.state ≠ f.mapping.state := by
          intro he
          have hh : (w.attribute f).handler = some ⟨f, f.stores⟩ := rfl
          rw [storesLeft_some hh, if_pos he.symm] at hleft
          cases hleft
        have hlog : (w.attribute f).log reg'.guard.state = w.log reg'.guard.state :=
          Function.update_of_ne hne _ _
        rw [hlog]
        exact h.settled reg' hm' (storesLeft_none hnone)
      stored := by
        rintro _ ⟨⟩
        refine ⟨[], w.log f.mapping.state, rfl, Function.update_self _ _ _, ?_⟩
        rw [hmapping]
        exact h.settled reg hm (storesLeft_none hnone)
      seen := h.seen }

theorem State.err_store {s : State} (h : s.err = true) (st : Store) : (s.store st).err = true := by
  cases st with
  | err => rfl
  | _ => exact h

theorem World.store_heap_self (f : Fix) (st : Store) (rest : List Store) :
    (w.store f st rest).registry.heap f.mapping.state =
      (w.registry.heap f.mapping.state).store st := Function.update_self _ _ _

/-- A store changes the state of the mapping that the handler found, and no other. -/
theorem World.store_heap_of_ne (f : Fix) (st : Store) (rest : List Store) {id : StateId}
    (hid : id ≠ f.mapping.state) :
    (w.store f st rest).registry.heap id = w.registry.heap id := Function.update_of_ne hid _ _

theorem World.Sound.store (h : w.Sound p) {f : Fix} {st : Store} {rest : List Store}
    (hh : w.handler = some ⟨f, st :: rest⟩) : (w.store f st rest).Sound p := by
  obtain ⟨done, older, hdone, hlog, hheap⟩ := h.stored _ hh
  have hdone' : f.stores = (done ++ [st]) ++ rest := by
    rw [hdone, List.append_assoc]
    rfl
  have hheap' : (w.store f st rest).registry.heap f.mapping.state =
      (done ++ [st]).foldl State.store (reported p older) := by
    rw [store_heap_self, hheap, List.foldl_append]
    rfl
  exact
    { registry := ⟨h.registry.clean, h.registry.root, h.registry.guards, h.registry.states⟩
      aligned := h.aligned
      attributed := by
        rintro _ ⟨⟩
        exact h.attributed ⟨f, st :: rest⟩ hh
      fixed := by
        rintro _ ⟨⟩
        exact h.fixed ⟨f, st :: rest⟩ hh
      settled := fun reg hm hleft => by
        by_cases hid : reg.guard.state = f.mapping.state
        · have hh' : (w.store f st rest).handler = some ⟨f, rest⟩ := rfl
          rw [storesLeft_some hh', if_pos hid.symm] at hleft
          have hall : f.stores = done ++ [st] := by
            rw [hdone', show rest = [] from hleft, List.append_nil]
          change (w.store f st rest).registry.heap _ = reported p (w.log _)
          rw [hid, hheap', ← hall, hlog]
          exact Fix.foldl_stores (h.fixed _ hh) _ _
        · rw [store_heap_of_ne f st rest hid]
          refine h.settled reg hm ?_
          rw [storesLeft_some hh]
          exact if_neg (Ne.symm hid)
      stored := by
        rintro _ ⟨⟩
        exact ⟨done ++ [st], older, hdone', hlog, hheap'⟩
      seen := fun reg hm hs => by
        have hold := h.seen reg hm hs
        by_cases hid : reg.guard.state = f.mapping.state
        · rw [Guard.isErr, hid] at hold ⊢
          rw [store_heap_self]
          exact State.err_store hold st
        · rw [Guard.isErr, store_heap_of_ne f st rest hid]
          exact hold }

theorem World.Sound.unlock (h : w.Sound p) {f : Fix} (hh : w.handler = some ⟨f, []⟩) :
    World.Sound p { w with handler := none } where
  registry := h.registry
  aligned := h.aligned
  attributed := by rintro _ ⟨⟩
  fixed := by rintro _ ⟨⟩
  settled reg hm _ := by
    refine h.settled reg hm ?_
    rw [storesLeft_some hh]
    exact ite_self []
  stored := by rintro _ ⟨⟩
  seen := h.seen

theorem World.Sound.observe (h : w.Sound p) {reg : Registration} (hm : reg ∈ w.registry.live) :
    (w.observe reg.guard).Sound p where
  registry := h.registry
  aligned := h.aligned
  attributed := h.attributed
  fixed := h.fixed
  settled := h.settled
  stored := h.stored
  seen reg' hm' hs := by
    by_cases hid : reg'.guard.state = reg.guard.state
    · obtain rfl := h.registry.eq_of_state hm' hm hid
      change Function.update w.seen reg'.guard.state _ reg'.guard.state = true at hs
      rw [Function.update_self, Bool.or_eq_true] at hs
      rcases hs with hs | hs
      · exact h.seen reg' hm' hs
      · exact hs
    · change Function.update w.seen reg.guard.state _ reg'.guard.state = true at hs
      rw [Function.update_of_ne hid] at hs
      exact h.seen reg' hm' hs

/-- What one event does. -/
theorem World.next_cases {a : Event} (hn : w.next a = some w') :
    (∃ l r, a = .client l ∧ w.handler = none ∧ w.registry.next l = some r ∧
      w' = { w.forget l with registry := r }) ∨
    (∃ kernel info f, a = .fault kernel info ∧ w.handler = none ∧
      handleSigbus kernel info w.registry.root = .ok f ∧ w' = w.attribute f) ∨
    (∃ f st rest, a = .store ∧ w.handler = some ⟨f, st :: rest⟩ ∧ w' = w.store f st rest) ∨
    (∃ f, a = .unlock ∧ w.handler = some ⟨f, []⟩ ∧ w' = { w with handler := none }) ∨
    ∃ i reg, a = .isErr i ∧ w.registry.live[i]? = some reg ∧ w' = w.observe reg.guard := by
  cases a with
  | client l =>
    cases hnone : w.handler with
    | some hd => simp [World.next, hnone] at hn
    | none =>
      simp only [World.next, hnone, Option.map_eq_some_iff] at hn
      obtain ⟨r, hr, rfl⟩ := hn
      exact .inl ⟨l, r, rfl, rfl, hr, rfl⟩
  | fault kernel info =>
    cases hnone : w.handler with
    | some hd => simp [World.next, hnone] at hn
    | none =>
      cases hf : handleSigbus kernel info w.registry.root with
      | error e => simp [World.next, hnone, hf] at hn
      | ok f =>
        simp only [World.next, hnone, hf, Option.some.injEq] at hn
        exact .inr (.inl ⟨kernel, info, f, rfl, rfl, hf, hn.symm⟩)
  | store =>
    cases hh : w.handler with
    | none => simp [World.next, hh] at hn
    | some hd =>
      obtain ⟨f, _ | ⟨st, rest⟩⟩ := hd
      · simp [World.next, hh] at hn
      · simp only [World.next, hh, Option.some.injEq] at hn
        exact .inr (.inr (.inl ⟨f, st, rest, rfl, rfl, hn.symm⟩))
  | unlock =>
    cases hh : w.handler with
    | none => simp [World.next, hh] at hn
    | some hd =>
      obtain ⟨f, _ | ⟨st, rest⟩⟩ := hd
      · simp only [World.next, hh, Option.some.injEq] at hn
        exact .inr (.inr (.inr (.inl ⟨f, rfl, rfl, hn.symm⟩)))
      · simp [World.next, hh] at hn
  | isErr i =>
    simp only [World.next, Option.map_eq_some_iff] at hn
    obtain ⟨reg, hi, rfl⟩ := hn
    exact .inr (.inr (.inr (.inr ⟨i, reg, rfl, hi, rfl⟩)))

theorem World.Sound.next (h : w.Sound p) {a : Event} (ha : contract p w a)
    (hn : w.next a = some w') : w'.Sound p := by
  rcases next_cases hn with ⟨l, r, rfl, hnone, hr, rfl⟩ | ⟨kernel, info, f, rfl, hnone, hf, rfl⟩ |
    ⟨f, st, rest, rfl, hh, rfl⟩ | ⟨f, rfl, hh, rfl⟩ | ⟨i, reg, rfl, hi, rfl⟩
  · exact h.client ha hnone hr
  · exact h.attribute ha hnone hf
  · exact h.store hh
  · exact h.unlock hh
  · exact h.observe (List.mem_of_getElem? hi)

end Steps

theorem World.sound_of_reach {p : PageSize} {w : World} (h : Reach process (contract p) w) :
    w.Sound p := by
  refine h.invariant ?_ ?_
  · rintro w ⟨hroot, hlive, hnone⟩
    have hmem : ∀ reg, reg ∉ w.registry.live := by simp [hlive]
    have hhandler : ∀ hd, w.handler ≠ some hd := by simp [hnone]
    exact
      { registry := Mmapcatch.sound_of_reach (.initial ⟨hroot, hlive⟩)
        aligned := fun reg hm => absurd hm (hmem reg)
        attributed := fun hd hs => absurd hs (hhandler hd)
        fixed := fun hd hs => absurd hs (hhandler hd)
        settled := fun reg hm => absurd hm (hmem reg)
        stored := fun hd hs => absurd hs (hhandler hd)
        seen := fun reg hm => absurd hm (hmem reg) }
  · exact fun w a w' _ hI ha hn => hI.next ha hn

/-- A fault goes to the guard in whose range it lies, and ends the process if there is none. -/
structure Attributes (w : World) (kernel : Kernel) (info : Siginfo) (a : Usize) : Prop where
  attributed_iff : ∀ reg ∈ w.registry.live,
    (∃ f, handleSigbus kernel info w.registry.root = .ok f ∧
      f.mapping.state = reg.guard.state) ↔ a.toNat ∈ reg.range
  aborts_iff : (∃ e, handleSigbus kernel info w.registry.root = .error e) ↔
    ∀ reg ∈ w.registry.live, a.toNat ∉ reg.range

/-- What a guard reports while no handler runs. -/
structure ReportsLast (p : PageSize) (w : World) (g : Guard) : Prop where
  isErr_iff : g.isErr w.registry.heap = true ↔ w.log g.state ≠ []
  last : ∀ f older, w.log g.state = f :: older → g.errAddr w.registry.heap = f.addr ∧
    (g.fixAddr w.registry.heap).toNat = f.addr.toNat / p.size * p.size ∧
    g.siCode w.registry.heap = f.siCode

/-- What a guard reports between any two stores. -/
structure ReportsRecent (p : PageSize) (w : World) (g : Guard) : Prop where
  completed : w.completed g.state ≠ []
  errAddr : ∃ f ∈ w.recent g.state, g.errAddr w.registry.heap = f.addr
  fixAddr : ∃ f ∈ w.recent g.state, g.fixAddr w.registry.heap = fixStart p.bytes f.addr
  siCode : ∃ f ∈ w.recent g.state, g.siCode w.registry.heap = f.siCode

/-- What one event may do to a guard that is live after it. -/
structure OwnFaults (w : World) (a : Event) (w' : World) (reg : Registration) : Prop where
  fields : reg ∈ w.registry.live →
    w'.registry.heap reg.guard.state = w.registry.heap reg.guard.state ∨
    a = .store ∧ ∃ h, w.handler = some h ∧ h.fix.mapping = reg.entry.2 ∧
      h.fix.info.addr.toNat ∈ reg.range
  log : reg ∈ w.registry.live →
    w'.log reg.guard.state = w.log reg.guard.state ∨
    ∃ kernel info f, a = .fault kernel info ∧ parseSigbus info = some f ∧
      f.addr.toNat ∈ reg.range ∧ w'.log reg.guard.state = f :: w.log reg.guard.state
  started : reg ∉ w.registry.live →
    w'.registry.heap reg.guard.state = State.new ∧ w'.log reg.guard.state = []
  seen : reg ∈ w.registry.live → w.seen reg.guard.state = true → w'.seen reg.guard.state = true

section Reports
variable {p : PageSize} {w w' : World} {reg : Registration}

theorem World.Sound.attributes (h : w.Sound p) {kernel : Kernel} {info : Siginfo}
    {sb : SigbusInfo} (hk : kernel.Obeys p) (hp : parseSigbus info = some sb) :
    Attributes w kernel info sb.addr where
  attributed_iff reg hm := by
    constructor
    · rintro ⟨f, hf, hs⟩
      obtain ⟨hp', -, reg', hm', hmapping, ha⟩ := h.of_handleSigbus hf
      cases hp.symm.trans hp'
      rw [hmapping] at hs
      rwa [h.registry.eq_of_state hm hm' hs.symm]
    · intro ha
      obtain ⟨f, hf, hmapping⟩ := h.handleSigbus_ok hk hp hm ha
      exact ⟨f, hf, by rw [hmapping]; rfl⟩
  aborts_iff := by
    constructor
    · rintro ⟨e, he⟩ reg hm ha
      obtain ⟨f, hf, -⟩ := h.handleSigbus_ok hk hp hm ha
      rw [he] at hf
      cases hf
    · intro hnone
      refine ⟨_, handleSigbus_eq_error (fun r hr => ?_) hp⟩
      by_contra hne
      obtain ⟨m, hm⟩ := Option.ne_none_iff_exists'.mp hne
      obtain ⟨e, he, hme, ha⟩ := (h.registry.root r hr).lookupAddr_eq_some_iff.mp hm
      rw [← Registry.entries_some hr, h.registry.guards.mem_iff] at he
      obtain ⟨reg, hreg, rfl⟩ := List.mem_map.mp he
      rw [← hme] at ha
      exact hnone reg hreg ha

theorem World.Sound.reportsLast (h : w.Sound p) (hnone : w.handler = none)
    (hm : reg ∈ w.registry.live) : ReportsLast p w reg.guard := by
  have hheap := h.settled reg hm (storesLeft_none hnone)
  cases hlog : w.log reg.guard.state with
  | nil =>
    rw [hlog] at hheap
    exact
      { isErr_iff := by simp [Guard.isErr, hheap, hlog, reported, State.new]
        last := by simp [hlog] }
  | cons f older =>
    rw [hlog] at hheap
    refine { isErr_iff := by simp [Guard.isErr, hheap, hlog, reported], last := ?_ }
    intro f' older' hf
    cases hlog.symm.trans hf
    exact ⟨by rw [Guard.errAddr, hheap]; rfl,
      by rw [Guard.fixAddr, hheap]; exact toNat_fixStart p f.addr,
      by rw [Guard.siCode, hheap]; rfl⟩

/-- While a store is left, `err` is as it was, and each other field is old or new. -/
theorem Fix.foldl_done {f : Fix} {done rest : List Store} (hdone : f.stores = done ++ rest)
    (hrest : rest ≠ []) (s : State) :
    (done.foldl State.store s).err = s.err ∧
    ((done.foldl State.store s).errAddr = s.errAddr ∨
      (done.foldl State.store s).errAddr = f.info.addr) ∧
    ((done.foldl State.store s).fixAddr = s.fixAddr ∨
      (done.foldl State.store s).fixAddr = f.fixStart) ∧
    ((done.foldl State.store s).siCode = s.siCode ∨
      (done.foldl State.store s).siCode = f.info.siCode) := by
  have hmem : done ∈ f.stores.inits := (List.mem_inits _ _).mpr ⟨rest, hdone.symm⟩
  have hne : done ≠ f.stores := by
    rintro rfl
    exact hrest (List.append_right_eq_self.mp hdone.symm)
  simp only [Fix.stores, List.inits, List.map_cons, List.map_nil, List.mem_cons,
    List.not_mem_nil, or_false] at hmem hne
  rcases hmem with rfl | rfl | rfl | rfl | rfl
  · exact ⟨rfl, .inl rfl, .inl rfl, .inl rfl⟩
  · exact ⟨rfl, .inl rfl, .inl rfl, .inr rfl⟩
  · exact ⟨rfl, .inl rfl, .inr rfl, .inr rfl⟩
  · exact ⟨rfl, .inr rfl, .inr rfl, .inr rfl⟩
  · exact absurd rfl hne

theorem World.Sound.reportsRecent (h : w.Sound p) (hm : reg ∈ w.registry.live)
    (hseen : w.seen reg.guard.state = true) : ReportsRecent p w reg.guard := by
  have herr := h.seen reg hm hseen
  rw [Guard.isErr] at herr
  by_cases hleft : w.storesLeft reg.guard.state = []
  · have hheap := h.settled reg hm hleft
    cases hlog : w.log reg.guard.state with
    | nil =>
      rw [hheap, hlog] at herr
      cases herr
    | cons f older =>
      rw [hlog] at hheap
      have hrecent : f ∈ w.recent reg.guard.state := by simp [recent, hleft, hlog]
      exact
        { completed := by simp [World.completed, hleft, hlog]
          errAddr := ⟨f, hrecent, by rw [Guard.errAddr, hheap]; rfl⟩
          fixAddr := ⟨f, hrecent, by rw [Guard.fixAddr, hheap]; rfl⟩
          siCode := ⟨f, hrecent, by rw [Guard.siCode, hheap]; rfl⟩ }
  · cases hh : w.handler with
    | none => exact absurd (storesLeft_none hh) hleft
    | some hd =>
      have hrest := hleft
      rw [storesLeft_some hh] at hrest
      split_ifs at hrest with hid
      · obtain ⟨done, older, hdone, hlog, hheap⟩ := h.stored hd hh
        rw [hid] at hlog hheap
        obtain ⟨he, hae, hfe, hce⟩ := Fix.foldl_done hdone hrest (reported p older)
        rw [hheap, he] at herr
        cases older with
        | nil => cases herr
        | cons g older =>
          have hnew : hd.fix.info ∈ w.recent reg.guard.state := by simp [recent, hleft, hlog]
          have hold : g ∈ w.recent reg.guard.state := by simp [recent, hleft, hlog]
          have hfixed := h.fixed hd hh
          exact
            { completed := by simp [World.completed, hleft, hlog]
              errAddr := by
                rw [Guard.errAddr, hheap]
                exact hae.elim (fun he => ⟨g, hold, he⟩) fun he => ⟨_, hnew, he⟩
              fixAddr := by
                rw [Guard.fixAddr, hheap]
                exact hfe.elim (fun he => ⟨g, hold, he⟩) fun he => ⟨_, hnew, he.trans hfixed⟩
              siCode := by
                rw [Guard.siCode, hheap]
                exact hce.elim (fun he => ⟨g, hold, he⟩) fun he => ⟨_, hnew, he⟩ }
      · exact absurd rfl hrest

theorem World.Sound.ownFaults (h : w.Sound p) {a : Event} (ha : contract p w a)
    (hn : w.next a = some w') (hm : reg ∈ w'.registry.live) : OwnFaults w a w' reg := by
  rcases next_cases hn with ⟨l, r, rfl, hnone, hr, rfl⟩ | ⟨kernel, info, f, rfl, hnone, hf, rfl⟩ |
    ⟨f, st, rest, rfl, hh, rfl⟩ | ⟨f, rfl, hh, rfl⟩ | ⟨i, reg', rfl, hi, rfl⟩
  · rcases h.client_live ha hr hm with ⟨hlive, hheap⟩ | ⟨hnew, -, hheap, hlog, -⟩
    · obtain ⟨hlog, hseen⟩ := forget_live hr hlive
      exact
        { fields := fun _ => .inl hheap
          log := fun _ => .inl hlog
          started := fun hne => absurd hlive hne
          seen := fun _ hs => hseen.trans hs }
    · exact
        { fields := fun hold => absurd hold hnew
          log := fun hold => absurd hold hnew
          started := fun _ => ⟨hheap, hlog⟩
          seen := fun hold => absurd hold hnew }
  · obtain ⟨hp, -, reg', hm', hmapping, hin⟩ := h.of_handleSigbus hf
    exact
      { fields := fun _ => .inl rfl
        log := fun _ => by
          by_cases hid : reg.guard.state = f.mapping.state
          · have hsame : reg = reg' := h.registry.eq_of_state hm hm' (by rw [hid, hmapping]; rfl)
            subst hsame
            refine .inr ⟨kernel, info, f.info, rfl, hp, hin, ?_⟩
            rw [hid]
            exact Function.update_self _ _ _
          · exact .inl (Function.update_of_ne hid _ _)
        started := fun hne => absurd hm hne
        seen := fun _ hs => hs }
  · obtain ⟨reg', hm', hmapping, hin⟩ := h.attributed _ hh
    exact
      { fields := fun _ => by
          by_cases hid : reg.guard.state = f.mapping.state
          · have hsame : reg = reg' := h.registry.eq_of_state hm hm' (by rw [hid, hmapping]; rfl)
            subst hsame
            exact .inr ⟨rfl, _, hh, hmapping, hin⟩
          · exact .inl (store_heap_of_ne f st rest hid)
        log := fun _ => .inl rfl
        started := fun hne => absurd hm hne
        seen := fun _ hs => hs }
  · exact
      { fields := fun _ => .inl rfl
        log := fun _ => .inl rfl
        started := fun hne => absurd hm hne
        seen := fun _ hs => hs }
  · refine
      { fields := fun _ => .inl rfl
        log := fun _ => .inl rfl
        started := fun hne => absurd hm hne
        seen := fun _ hs => ?_ }
    by_cases hid : reg.guard.state = reg'.guard.state
    · rw [hid] at hs ⊢
      change Function.update w.seen _ _ _ = true
      rw [Function.update_self, hs]
      rfl
    · exact (Function.update_of_ne hid _ _).trans hs

end Reports

/-- Guards report exactly their own faults, in every run that keeps the contract. -/
theorem guards_report_own_faults {p : PageSize} {w : World} (h : Reach process (contract p) w) :
    (∀ kernel info f, kernel.Obeys p → parseSigbus info = some f →
      Attributes w kernel info f.addr) ∧
    (w.handler = none → ∀ reg ∈ w.registry.live, ReportsLast p w reg.guard) ∧
    (∀ reg ∈ w.registry.live, w.seen reg.guard.state = true → ReportsRecent p w reg.guard) ∧
    ∀ a w', contract p w a → w.next a = some w' → ∀ reg ∈ w'.registry.live,
      OwnFaults w a w' reg := by
  have hs := World.sound_of_reach h
  exact ⟨fun _ _ _ hk hp => hs.attributes hk hp, fun hnone _ hm => hs.reportsLast hnone hm,
    fun _ hm hseen => hs.reportsRecent hm hseen, fun _ _ ha hn _ hm => hs.ownFaults ha hn hm⟩

/-- Two pages of `0x1000` bytes, of which the second faults. -/
def secondPage : List Event :=
  [.client (.registerMmap (.ok ()) 0x1000 0x2000 1 0),
    .fault ⟨0x1000, fun addr _ _ => addr⟩ ⟨SIGBUS, BUS_ADRERR, 0x2010⟩, .store, .store, .store,
    .store, .unlock, .isErr 0]

theorem guards_report_own_faults_secondPage :
    ∃ w, run process ⟨⟨none, fun _ => State.new, []⟩, none, fun _ => [], fun _ => false⟩
        secondPage = some w ∧ w.log 0 = [⟨0x2010, BUS_ADRERR⟩] ∧
      Attributes w ⟨0x1000, fun addr _ _ => addr⟩ ⟨SIGBUS, BUS_OBJERR, 0x1fff⟩ 0x1fff ∧
      ReportsLast ⟨12, by decide⟩ w ⟨0x1000, 0⟩ ∧ ReportsRecent ⟨12, by decide⟩ w ⟨0x1000, 0⟩ ∧
      OwnFaults w (.isErr 0) (w.observe ⟨0x1000, 0⟩) ⟨⟨0x1000, 0⟩, 0x2000, 1⟩ := by
  obtain ⟨w, hw, hlog, hlive, hnone, hseen⟩ : ∃ w, run process
      ⟨⟨none, fun _ => State.new, []⟩, none, fun _ => [], fun _ => false⟩ secondPage = some w ∧
      w.log 0 = [⟨0x2010, BUS_ADRERR⟩] ∧ w.registry.live = [⟨⟨0x1000, 0⟩, 0x2000, 1⟩] ∧
      w.handler = none ∧ w.seen 0 = true := ⟨_, rfl, rfl, rfl, rfl, rfl⟩
  have hkernel : Kernel.Obeys ⟨0x1000, fun addr _ _ => addr⟩ ⟨12, by decide⟩ :=
    ⟨rfl, fun _ _ _ => rfl⟩
  have hcontract : ∀ s, ∀ a ∈ secondPage, contract ⟨12, by decide⟩ s a := by
    intro s a ha
    simp only [secondPage, List.mem_cons, List.not_mem_nil, or_false] at ha
    rcases ha with rfl | rfl | rfl | rfl | rfl | rfl | rfl | rfl
    · exact ⟨⟨by decide, by decide⟩, by decide, by decide⟩
    · exact hkernel
    all_goals trivial
  have hm : ⟨⟨0x1000, 0⟩, 0x2000, 1⟩ ∈ w.registry.live := by
    rw [hlive]
    exact List.mem_singleton_self _
  have hnext : w.next (.isErr 0) = some (w.observe ⟨0x1000, 0⟩) := by
    rw [World.next, hlive]
    rfl
  obtain ⟨hattr, hlast, hrecent, hown⟩ :=
    guards_report_own_faults (.run (.initial ⟨rfl, rfl, rfl⟩) (fun s a ha => hcontract s a ha) hw)
  exact ⟨w, hw, hlog, hattr _ _ ⟨0x1fff, BUS_OBJERR⟩ hkernel rfl, hlast hnone _ hm,
    hrecent _ hm hseen, hown (.isErr 0) _ trivial hnext _ hm⟩

end SignalCrates.Mmapcatch
