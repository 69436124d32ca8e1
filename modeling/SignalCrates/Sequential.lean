import SignalCrates.MemoryModel

/-!
# Sequential executions

The execution in which the events take place one after the other, each read returning the
last write before it. It is consistent, whatever the orders of the accesses are.
-/
namespace SignalCrates.MemoryModel.Execution

variable {E L V : Type*}

def wrote (access : E → Option (Access L V)) (e : E) : Option (L × V) :=
  (access e).bind Access.writes

def wasRead (access : E → Option (Access L V)) (e : E) : Option (L × V) :=
  (access e).bind Access.reads

/-- `w` is the last write to the location `l` before `r`. -/
def LastWrite (access : E → Option (Access L V)) (pos : E → ℕ) (l : L) (w r : E) : Prop :=
  pos w < pos r ∧
    ∀ w', (wrote access w').map Prod.fst = some l → pos w' < pos r → pos w' ≤ pos w

instance [Fintype E] [DecidableEq L] (access : E → Option (Access L V)) (pos : E → ℕ) (l : L)
    (w r : E) : Decidable (LastWrite access pos l w r) :=
  inferInstanceAs (Decidable (_ ∧ _))

def sequential (access : E → Option (Access L V)) (sb sw₀ : E → E → Prop) (pos : E → ℕ) :
    Execution E L V where
  access := access
  sb := sb
  rf w r := ∃ lv, wrote access w = some lv ∧ wasRead access r = some lv ∧
    LastWrite access pos lv.1 w r
  mo a b := pos a < pos b ∧ ∃ l, (wrote access a).map Prod.fst = some l ∧
    (wrote access b).map Prod.fst = some l
  sc a b := pos a < pos b ∧ access a = some (.fence .seqCst) ∧ access b = some (.fence .seqCst)
  sw₀ := sw₀

variable {access : E → Option (Access L V)} {sb sw₀ : E → E → Prop} {pos : E → ℕ}

theorem sequential_writes {e : E} {l : L} {v : V} :
    (sequential access sb sw₀ pos).Writes e l v ↔ wrote access e = some (l, v) :=
  Option.bind_eq_some_iff.symm

theorem sequential_reads {e : E} {l : L} {v : V} :
    (sequential access sb sw₀ pos).Reads e l v ↔ wasRead access e = some (l, v) :=
  Option.bind_eq_some_iff.symm

theorem sequential_interleaved (hpos : Function.Injective pos)
    (hsb : ∀ a b, sb a b → pos a < pos b) (htrans : ∀ a b c, sb a b → sb b c → sb a c)
    (hsw : ∀ a b, sw₀ a b → pos a < pos b)
    (hread : ∀ r, ∀ lv ∈ wasRead access r, ∃ w, wrote access w = some lv ∧
      LastWrite access pos lv.1 w r) :
    (sequential access sb sw₀ pos).Interleaved pos where
  injective := hpos
  sb := hsb
  sb_trans := htrans
  sw₀ := hsw
  rf w r h := by
    obtain ⟨⟨l, v⟩, hw, hr, hlt, hlast⟩ := h
    exact ⟨l, v, sequential_writes.mpr hw, sequential_reads.mpr hr, hlt, hlast⟩
  rf_total r l v h := by
    have hr := sequential_reads.mp h
    obtain ⟨w, hw, hlast⟩ := hread r (l, v) hr
    exact ⟨w, (l, v), hw, hr, hlast⟩
  mo _ _ := Iff.rfl
  sc _ _ := Iff.rfl

theorem sequential_wf : WellFounded (sequential access sb sw₀ pos).mo :=
  Subrelation.wf (fun h => h.1) (InvImage.wf pos wellFounded_lt)

end SignalCrates.MemoryModel.Execution
