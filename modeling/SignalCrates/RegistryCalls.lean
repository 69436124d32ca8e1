import SignalCrates.SerialObject
import SignalCrates.FutexExclusion
import SignalCrates.PipeExclusion
import SignalCrates.MmapRegistry

/-!
# The registry behind its lock

`ROOT` as the item of a FutexLock or a PipeLock, once it has been created. Any frame of any
thread may register a range, drop a live guard or look an address up as the signal handler
does. The calls take effect one after the other, and each answers as `registry_exact` has it.
-/
namespace SignalCrates.Mmapcatch
open TransitionSystem InterruptStack ExclusiveCell CellRefinement SerialObject

/-- The allocation of `Arc::new`, different from those that an `Arc` refers to. -/
structure Allocator where
  next : List StateId → StateId
  fresh : ∀ arcs, next arcs ∉ arcs

/-- The critical sections of `ROOT`. -/
inductive Request
  | registerMmap (alloc : Allocator) (addr len : Usize) (prot : CInt)
  | drop (reg : Registration)
  | lookupAddr (addr : Usize)

/-- A guard that is not live cannot be dropped. -/
inductive Answer
  | registered (res : Outcome (Except RegisterError Guard))
  | dropped (res : Option (Outcome Unit))
  | found (mapping : Option Mapping)

def registry : Object Registry Request Answer where
  apply w
    | .registerMmap alloc addr len prot =>
      let r := w.registerMmap (.ok ()) addr len prot (alloc.next w.arcs)
      (.registered r.1, r.2)
    | .drop reg =>
      match (w.live.idxOf? reg).bind fun i => w.drop (.ok ()) i with
      | some (res, w') => (.dropped (some res), w')
      | none => (.dropped none, w)
    | .lookupAddr addr => (.found (w.root.bind fun r => r.lookupAddr addr), w)

/-- The registry when `SignalLock::new` has just returned. -/
def Registry.new : Registry := ⟨some Root.new, fun _ => State.new, []⟩

def Request.Fits : Request → Prop
  | .registerMmap _ addr len _ => Mmapcatch.Fits addr len
  | _ => True

section Registry
variable {w : Registry} {c : Request}

/-- The registry after a call is one that the calls one after the other can reach. -/
theorem Registry.Sound.apply (h : w.Sound) (hc : c.Fits) : (registry.apply w c).2.Sound := by
  cases c with
  | registerMmap alloc addr len prot =>
    have hn : w.next (.registerMmap (.ok ()) addr len prot (alloc.next w.arcs)) =
        some (registry.apply w (.registerMmap alloc addr len prot)).2 :=
      if_neg (alloc.fresh w.arcs)
    refine sound_next h ?_ hn
    exact hc
  | drop reg =>
    simp only [registry]
    split
    · next res w' he =>
      obtain ⟨i, -, hd⟩ := Option.bind_eq_some_iff.mp he
      have hn : w.next (.drop (.ok ()) i) = some w' := by simp only [Registry.next, hd]; rfl
      refine sound_next h ?_ hn
      trivial
    · exact h
  | lookupAddr addr => exact h

end Registry

end SignalCrates.Mmapcatch
