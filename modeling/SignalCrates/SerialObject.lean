import SignalCrates.CellRefinement

/-!
# Objects behind a lock

An object answers one operation at a time. Behind a lock each operation is a critical
section that reads the state and writes the next one. The log lists the operations with
their answers.
-/
namespace SignalCrates.SerialObject
open TransitionSystem InterruptStack ExclusiveCell CellRefinement

structure Object (W O R : Type*) where
  apply : W → O → R × W

structure Logged (W O R : Type*) where
  state : W
  log : List (O × R)

variable {W O R : Type*}

namespace Object

/-- The update that the critical section of an operation makes. -/
def update (A : Object W O R) (o : O) (x : Logged W O R) : Logged W O R :=
  ⟨(A.apply x.state o).2, x.log ++ [(o, (A.apply x.state o).1)]⟩

/-- The answers and the end of operations that satisfy `Q`, one after the other. -/
inductive Serial (A : Object W O R) (Q : O → Prop) (w₀ : W) : List (O × R) → W → Prop
  | nil : Serial A Q w₀ [] w₀
  | snoc {log : List (O × R)} {w : W} {o : O} (h : Serial A Q w₀ log w) (hq : Q o) :
      Serial A Q w₀ (log ++ [(o, (A.apply w o).1)]) (A.apply w o).2

variable {A : Object W O R} {Q : O → Prop} {w₀ w : W} {log : List (O × R)}

/-- What every operation keeps holds at the end. -/
theorem Serial.invariant {I : W → Prop} (h : A.Serial Q w₀ log w) (hinit : I w₀)
    (hstep : ∀ w o, Q o → I w → I (A.apply w o).2) : I w := by
  induction h with
  | nil => exact hinit
  | snoc _ hq ih => exact hstep _ _ hq ih

end Object

section Lock
variable {ι S F B G : Type*} [DecidableEq ι] {P : Program ι S F B}
  {V : View ι S F G (Logged W O R)} {initial : State ι S F → Prop}
  {ok : State ι S F → Label ι B → Prop} {A : Object W O R} {Q : O → Prop} {w₀ : W}

end Lock

end SignalCrates.SerialObject
