import SignalCrates.SignalLock

/-!
# The packed futex word

The word is 0, or the holder's tid within `FUTEX_TID_MASK`, together with the
`FUTEX_WAITERS` bit when a waiter may need `FUTEX_WAKE`.
-/
namespace SignalCrates.FutexWord
open SignalLock

abbrev Word := BitVec 32

def FUTEX_WAITERS : Word := 0x80000000#32

def FUTEX_TID_MASK : Word := 0x3fffffff#32

/-- The tids that a thread can have: nonzero and within the mask. -/
def validTid (t : Tid) : Bool := t ≠ 0 ∧ t &&& FUTEX_TID_MASK = t

/-- The word of a lock held by `t`, with or without the waiters bit. -/
def HeldBy (t : Tid) (w : Word) : Prop := w = t ∨ w = t ||| FUTEX_WAITERS

theorem validTid_ne_zero {t : Tid} (h : validTid t = true) : t ≠ 0 := by
  simp only [validTid, decide_eq_true_eq] at h
  exact h.1

theorem validTid_mask {t : Tid} (h : validTid t = true) : t &&& FUTEX_TID_MASK = t := by
  simp only [validTid, decide_eq_true_eq] at h
  exact h.2

theorem validTid_and_waiters {t : Tid} (h : validTid t = true) : t &&& FUTEX_WAITERS = 0 := by
  rw [← validTid_mask h, BitVec.and_assoc]
  simp [FUTEX_WAITERS, FUTEX_TID_MASK]

theorem or_waiters_and_mask {t : Tid} (h : validTid t = true) :
    (t ||| FUTEX_WAITERS) &&& FUTEX_TID_MASK = t := by
  rw [BitVec.and_or_distrib_right, validTid_mask h]
  simp [FUTEX_WAITERS, FUTEX_TID_MASK]

theorem or_waiters_and_waiters (w : Word) :
    (w ||| FUTEX_WAITERS) &&& FUTEX_WAITERS ≠ 0 := by
  rw [BitVec.and_or_distrib_right]
  intro h
  have hb := congrArg (fun v : Word => v.getLsbD 31) h
  simp [FUTEX_WAITERS] at hb

theorem HeldBy.holder {t : Tid} {w : Word} (ht : validTid t = true) (h : HeldBy t w) :
    w &&& FUTEX_TID_MASK = t := by
  rcases h with rfl | rfl
  · exact validTid_mask ht
  · exact or_waiters_and_mask ht

theorem HeldBy.ne_zero {t : Tid} {w : Word} (ht : validTid t = true) (h : HeldBy t w) :
    w ≠ 0 := by
  rintro rfl
  have hz : (0 : Word) &&& FUTEX_TID_MASK = 0 := by decide
  exact validTid_ne_zero ht ((h.holder ht).symm.trans hz)

theorem HeldBy.or_waiters {t : Tid} {w : Word} (h : HeldBy t w) :
    HeldBy t (w ||| FUTEX_WAITERS) := by
  rcases h with rfl | rfl
  · exact .inr rfl
  · rw [BitVec.or_assoc, BitVec.or_self]
    exact .inr rfl

theorem or_waiters_ne {t : Tid} (h : validTid t = true) : t ||| FUTEX_WAITERS ≠ t := by
  intro he
  have hw := or_waiters_and_waiters t
  rw [he] at hw
  exact hw (validTid_and_waiters h)

/-- The word has a nonzero holder and the waiters bit. -/
def Flagged (w : Word) : Prop := w &&& FUTEX_TID_MASK ≠ 0 ∧ w &&& FUTEX_WAITERS ≠ 0

theorem not_flagged_zero : ¬ Flagged 0 := fun h => h.1 (by decide)

theorem HeldBy.flagged {t : Tid} {w : Word} (ht : validTid t = true) (h : HeldBy t w)
    (hw : w &&& FUTEX_WAITERS ≠ 0) : Flagged w :=
  ⟨by rw [h.holder ht]; exact validTid_ne_zero ht, hw⟩

end SignalCrates.FutexWord
