import SignalCrates.InterruptStack
import SignalCrates.ExclusiveCell

/-! What the two lock implementations share: thread ids, and the result of `lock`. -/
namespace SignalCrates.SignalLock

abbrev Tid := BitVec 32

inductive SignalLockError
  | recursive
  deriving DecidableEq, Repr

/-- What `lock` returns, apart from the guard. -/
abbrev Result := Except SignalLockError Unit

end SignalCrates.SignalLock
