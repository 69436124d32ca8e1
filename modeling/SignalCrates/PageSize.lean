import Mathlib

/-!
# Page sizes

A page size is a power of two, so masking an address with its complement rounds the
address down to a page.
-/
namespace SignalCrates

structure PageSize where
  exponent : ℕ
  lt : exponent < 64

namespace PageSize

variable (p : PageSize)

/-- The number of bytes of a page. -/
def size : ℕ := 2 ^ p.exponent

def bytes : BitVec 64 := BitVec.twoPow 64 p.exponent

theorem size_pos : 0 < p.size := Nat.two_pow_pos _

theorem size_lt : p.size < 2 ^ 64 := Nat.pow_lt_pow_right (by omega) p.lt

theorem toNat_bytes : p.bytes.toNat = p.size := by
  rw [bytes, BitVec.toNat_twoPow, ← size, Nat.mod_eq_of_lt p.size_lt]

theorem bytes_ne_allOnes : p.bytes ≠ BitVec.allOnes 64 := by
  intro h
  have hbytes := p.toNat_bytes
  have hpow : p.size ≤ 2 ^ 63 := Nat.pow_le_pow_right (by omega) (by have := p.lt; omega)
  rw [h, BitVec.toNat_allOnes] at hbytes
  omega

theorem cpopNatRec_bytes (n acc : ℕ) :
    p.bytes.cpopNatRec n acc = acc + if p.exponent < n then 1 else 0 := by
  induction n generalizing acc with
  | zero => rfl
  | succ n ih =>
    rw [BitVec.cpopNatRec_succ, ih, bytes, BitVec.getLsbD_twoPow]
    by_cases hn : p.exponent = n
    · simp [hn.symm, p.lt]
    · have hlt : p.exponent < n + 1 ↔ p.exponent < n := by omega
      simp [hn, hlt]

/-- One bit of a page size is set. -/
theorem cpop_bytes : p.bytes.cpop = 1 := by
  rw [BitVec.cpop, cpopNatRec_bytes, if_pos p.lt]
  rfl

theorem getLsbD_bytes_sub_one (i : ℕ) : (p.bytes - 1).getLsbD i = decide (i < p.exponent) := by
  have hmask : (p.bytes - 1).toNat = 2 ^ p.exponent - 1 := by
    have hbytes := p.toNat_bytes
    have hpos := p.size_pos
    have hlt := p.size_lt
    rw [← size]
    bv_omega
  rw [BitVec.getLsbD, hmask, Nat.testBit_two_pow_sub_one]

theorem and_mask (a : BitVec 64) :
    a &&& ~~~(p.bytes - 1) = (a >>> p.exponent) <<< p.exponent := by
  apply BitVec.eq_of_getLsbD_eq
  intro i hi
  rw [BitVec.getLsbD_and, BitVec.getLsbD_not, getLsbD_bytes_sub_one, BitVec.getLsbD_shiftLeft,
    BitVec.getLsbD_ushiftRight]
  by_cases hlow : i < p.exponent
  · simp [hlow]
  · have hadd : p.exponent + (i - p.exponent) = i := by omega
    simp [hlow, hi, hadd]

/-- The mask rounds down to the page. -/
theorem toNat_and_mask (a : BitVec 64) :
    (a &&& ~~~(p.bytes - 1)).toNat = a.toNat / p.size * p.size := by
  have hle : a.toNat / 2 ^ p.exponent * 2 ^ p.exponent < 2 ^ 64 :=
    (Nat.div_mul_le_self _ _).trans_lt a.isLt
  rw [and_mask, BitVec.toNat_shiftLeft, BitVec.toNat_ushiftRight, Nat.shiftRight_eq_div_pow,
    Nat.shiftLeft_eq, Nat.mod_eq_of_lt hle, size]

/-- The page of an address is not below an aligned address that the address is not below. -/
theorem le_div_mul {start a : ℕ} (ha : p.size ∣ start) (h : start ≤ a) :
    start ≤ a / p.size * p.size := by
  obtain ⟨n, rfl⟩ := ha
  have hn : n ≤ a / p.size := (Nat.le_div_iff_mul_le p.size_pos).mpr (by rwa [mul_comm])
  rw [mul_comm]
  exact Nat.mul_le_mul_right _ hn

/-- The pages that `len` bytes at `addr` meet. Pages are numbered from address zero. -/
def pages (addr len : ℕ) : Set ℕ := { i | addr / p.size ≤ i ∧ i * p.size < addr + len }

/-- The page of an address inside a range is one of its pages. -/
theorem div_mem_pages {addr len a : ℕ} (h : addr ≤ a) (hlt : a < addr + len) :
    a / p.size ∈ p.pages addr len :=
  ⟨Nat.div_le_div_right h, (Nat.div_mul_le_self a p.size).trans_lt hlt⟩

/-- A range that starts on a page of another one and ends with it meets the other's pages
from there on. -/
theorem pages_tail {addr len a len' : ℕ} (h : addr ≤ a / p.size * p.size)
    (hstop : a / p.size * p.size + len' = addr + len) :
    p.pages (a / p.size * p.size) len' = { i ∈ p.pages addr len | a / p.size ≤ i } := by
  have hle : addr / p.size ≤ a / p.size := by
    have hdiv := Nat.div_le_div_right (c := p.size) h
    rwa [Nat.mul_div_cancel _ p.size_pos] at hdiv
  ext i
  simp only [pages, Set.mem_ofPred_eq, Nat.mul_div_cancel _ p.size_pos, hstop]
  constructor
  · rintro ⟨hi, hlt⟩
    exact ⟨⟨hle.trans hi, hlt⟩, hi⟩
  · rintro ⟨⟨-, hlt⟩, hi⟩
    exact ⟨hi, hlt⟩

end PageSize

end SignalCrates
