import SignalCrates.TransitionSystem

/-!
# A cell that one owner at a time reads and then updates

The abstract purpose of a lock. Each critical section is given, when it is entered,
the update it will make; the history lists these updates in the order of acquisition.
-/
namespace SignalCrates.ExclusiveCell
open TransitionSystem

inductive Stage (T : Type*)
  | entered
  | read (x : T)
  | written

structure Section (T : Type*) where
  update : T → T
  stage : Stage T

structure Cell (T : Type*) where
  item : T
  history : List (T → T)

inductive Access
  | read
  | write
  deriving DecidableEq, Repr

structure State (ι T : Type*) where
  owner : Option (ι × Section T)
  cell : Cell T

inductive Event (ι T : Type*)
  | acquire (t : ι) (u : T → T)
  | access (a : Access)
  | release

variable {ι T : Type*}

def Section.enter (u : T → T) : Section T := ⟨u, .entered⟩

def Cell.acquire (c : Cell T) (u : T → T) : Cell T := { c with history := c.history ++ [u] }

/-- A critical section reads the item once and later writes a function of what it read. -/
def Section.access (c : Cell T) (k : Section T) : Access → Option (Cell T × Section T)
  | .read =>
    match k.stage with
    | .entered => some (c, { k with stage := .read c.item })
    | _ => none
  | .write =>
    match k.stage with
    | .read x => some ({ c with item := k.update x }, { k with stage := .written })
    | _ => none

/-- How many more times a section can access the item. -/
def Stage.left : Stage T → ℕ
  | .entered => 2
  | .read _ => 1
  | .written => 0

def Section.finished (k : Section T) : Prop := k.stage = .written

/-- The updates applied in the order in which they are listed. -/
def replay (x : T) (us : List (T → T)) : T := us.foldl (fun y u => u y) x

def next (s : State ι T) : Event ι T → Option (State ι T)
  | .acquire t u =>
    match s.owner with
    | none => some ⟨some (t, .enter u), s.cell.acquire u⟩
    | some _ => none
  | .access a =>
    match s.owner with
    | none => none
    | some (t, k) => (k.access s.cell a).map fun r => ⟨some (t, r.2), r.1⟩
  | .release =>
    match s.owner with
    | none => none
    | some _ => some ⟨none, s.cell⟩

def system (ι : Type*) (x : T) : System (State ι T) (Event ι T) :=
  ⟨fun s => s = ⟨none, ⟨x, []⟩⟩, next⟩

/-- Every critical section has read and written the item before it ends. -/
def complete (s : State ι T) : Event ι T → Prop
  | .release => ∀ p, s.owner = some p → p.2.finished
  | _ => True

/-- What the item is while a section is open: its own update is the last of the
history and is pending until the section writes. -/
def Open (x : T) (c : Cell T) (k : Section T) : Prop :=
  ∃ us, c.history = us ++ [k.update] ∧
    match k.stage with
    | .entered => c.item = replay x us
    | .read y => c.item = replay x us ∧ y = replay x us
    | .written => c.item = replay x c.history

def Consistent (x : T) (s : State ι T) : Prop :=
  match s.owner with
  | none => s.cell.item = replay x s.cell.history
  | some (_, k) => Open x s.cell k

theorem replay_snoc (x : T) (us : List (T → T)) (u : T → T) :
    replay x (us ++ [u]) = u (replay x us) := by
  simp [replay, List.foldl_append]

theorem Open.acquire {x : T} {c : Cell T} (h : c.item = replay x c.history) (u : T → T) :
    Open x (c.acquire u) (.enter u) := ⟨c.history, rfl, h⟩

theorem Open.access {x : T} {c c' : Cell T} {k k' : Section T} {a : Access}
    (h : Open x c k) (ha : k.access c a = some (c', k')) : Open x c' k' := by
  obtain ⟨us, hus, hk⟩ := h
  cases a with
  | read =>
    cases hs : k.stage with
    | entered =>
      simp only [Section.access, hs, Option.some.injEq, Prod.mk.injEq] at ha hk
      obtain ⟨rfl, rfl⟩ := ha
      exact ⟨us, hus, hk, hk⟩
    | read y => simp [Section.access, hs] at ha
    | written => simp [Section.access, hs] at ha
  | write =>
    cases hs : k.stage with
    | entered => simp [Section.access, hs] at ha
    | read y =>
      simp only [Section.access, hs, Option.some.injEq, Prod.mk.injEq] at ha hk
      obtain ⟨rfl, rfl⟩ := ha
      refine ⟨us, hus, ?_⟩
      simp only [hus, replay_snoc, hk.2]
    | written => simp [Section.access, hs] at ha

theorem Open.release {x : T} {c : Cell T} {k : Section T} (h : Open x c k)
    (hk : k.finished) : c.item = replay x c.history := by
  obtain ⟨us, -, h⟩ := h
  rw [Section.finished] at hk
  simpa [hk] using h

theorem Section.access_left {c c' : Cell T} {k k' : Section T} {a : Access}
    (ha : k.access c a = some (c', k')) : k'.stage.left + 1 = k.stage.left := by
  cases a <;> cases hs : k.stage <;> simp [Section.access, hs] at ha
  · simp [← ha.2, Stage.left]
  · simp [← ha.2, Stage.left]

theorem consistent_next {x : T} {s s' : State ι T} {e : Event ι T} (h : Consistent x s)
    (hc : complete s e) (hn : next s e = some s') : Consistent x s' := by
  cases e with
  | acquire t u =>
    cases ho : s.owner with
    | none =>
      simp only [next, ho, Option.some.injEq, Consistent] at hn h
      subst hn
      exact Open.acquire h u
    | some p => simp [next, ho] at hn
  | access a =>
    cases ho : s.owner with
    | none => simp [next, ho] at hn
    | some p =>
      simp only [next, ho, Option.map_eq_some_iff, Consistent] at hn h
      obtain ⟨r, hr, rfl⟩ := hn
      exact Open.access h hr
  | release =>
    cases ho : s.owner with
    | none => simp [next, ho] at hn
    | some p =>
      simp only [next, ho, Option.some.injEq, Consistent] at hn h
      subst hn
      exact Open.release h (hc p ho)

/-- No update is lost or duplicated. -/
theorem consistent_of_reach {x : T} {s : State ι T}
    (h : Reach (system ι x) complete s) : Consistent x s := by
  apply h.invariant
  · rintro s rfl
    rfl
  · exact fun s e s' _ hI hc hn => consistent_next hI hc hn

end SignalCrates.ExclusiveCell
