import Mathlib

-- Memory as a sequence of bytes, where values of several bytes are stored in little-endian order.

def Bytes := Nat → BitVec 8

namespace Bytes

variable {m : Bytes} {a b v w w' : Nat}

-- The value of the `w` bytes that start at address `a`.
def load (m : Bytes) (a : Nat) : Nat → Nat
  | 0     => 0
  | w + 1 => (m a).toNat + 256 * load m (a + 1) w

-- Storing the lower `w` bytes of `v` at address `a`.
def store (m : Bytes) (a w v : Nat) : Bytes :=
  fun k => if a ≤ k ∧ k < a + w then .ofNat 8 (v / 256 ^ (k - a)) else m k

theorem load_congr {m' : Bytes} (h : ∀ k, a ≤ k → k < a + w → m k = m' k) : m.load a w = m'.load a w := by
  induction w generalizing a
  case zero => rfl
  case succ w ih =>
    have hw : m.load (a + 1) w = m'.load (a + 1) w := ih fun k h₁ h₂ => h k (by omega) (by omega)
    rw [load, load, hw, h a (le_refl a) (by omega)]

theorem load_of_forall_zero (h : ∀ k, m k = 0) : m.load a w = 0 := by
  induction w generalizing a
  case zero    => rfl
  case succ ih => simp [load, h, ih]

-- A store does not affect the bytes in front of it and behind it.
theorem load_store_of_disjoint (h : b + w' ≤ a ∨ a + w ≤ b) : (m.store a w v).load b w' = m.load b w' := by
  induction w' generalizing b
  case zero => rfl
  case succ w' ih =>
    have hb : ¬(a ≤ b ∧ b < a + w) := by omega
    simp only [load, store, hb, ↓reduceIte]
    congr 2
    exact ih (by omega)

-- Loading some of the bytes that have been stored.
theorem load_store_of_le (h : b + w' ≤ w) : (m.store a w v).load (a + b) w' = v / 256 ^ b % 256 ^ w' := by
  induction w' generalizing b
  case zero => simp [load, Nat.mod_one]
  case succ w' ih =>
    have hb : a ≤ a + b ∧ a + b < a + w := by omega
    have ih := ih (b := b + 1) (by omega)
    rw [← Nat.add_assoc, Nat.pow_succ, ← Nat.div_div_eq_div_mul] at ih
    have hm : (BitVec.ofNat 8 (v / 256 ^ b)).toNat = v / 256 ^ b % 256 := BitVec.toNat_ofNat ..
    rw [load, ih, store, if_pos hb, Nat.add_sub_cancel_left, hm, Nat.pow_succ', Nat.mod_mul]

theorem load_store : (m.store a w v).load a w = v % 256 ^ w := by
  simpa using load_store_of_le (m := m) (a := a) (b := 0) (v := v) (le_of_eq (Nat.zero_add w))

theorem load_lt : m.load a w < 256 ^ w := by
  induction w generalizing a
  case zero => simp [load]
  case succ w ih =>
    have h := ih (a := a + 1)
    have hm := (m a).isLt
    rw [load, Nat.pow_succ]
    omega

-- A byte of a value that has been loaded.
theorem load_div {i : Nat} (h : i < w) : m.load a w / 256 ^ i % 256 = (m (a + i)).toNat := by
  induction w generalizing a i
  case zero => omega
  case succ w ih =>
    have hm := (m a).isLt
    cases i
    case zero =>
      have h0 : a + 0 = a := rfl
      rw [load, Nat.pow_zero, Nat.div_one, h0]
      omega
    case succ i =>
      have hd : m.load a (w + 1) / 256 = m.load (a + 1) w := by
        rw [load]
        omega
      rw [Nat.pow_succ', ← Nat.div_div_eq_div_mul, hd, ih (by omega), Nat.add_assoc, Nat.add_comm 1 i]

-- Storing the value that is there already.
theorem store_load : m.store a w (m.load a w) = m := by
  funext k
  unfold store
  split
  case isFalse => rfl
  case isTrue h =>
    apply BitVec.eq_of_toNat_eq
    rw [BitVec.toNat_ofNat, load_div (by omega)]
    congr 2
    omega

-- Some of the bytes of a value that has been loaded.
theorem load_div_mod (h : b + w' ≤ w) : m.load a w / 256 ^ b % 256 ^ w' = m.load (a + b) w' := by
  have hs := load_store_of_le (m := m) (a := a) (v := m.load a w) h
  rw [store_load] at hs
  exact hs.symm

end Bytes
