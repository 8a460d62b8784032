import Xesual.Boot.Apic

namespace Processor

variable {σ : Processor} {a : BitVec 64}

theorem getMSR_setMSR {msr lo hi : BitVec 32} : (σ.cpuSetMSR msr lo hi).cpuGetMSR msr = (lo, hi) := by
  have h : (σ.cpuSetMSR msr lo hi).msr msr = (hi.setWidth 64 <<< 32) ||| lo.setWidth 64 := Function.update_self ..
  rw [cpuGetMSR, h, Prod.mk.injEq]
  constructor
  case left =>
    refine BitVec.eq_of_getLsbD_eq fun i hi => ?_
    simp [hi]
  case right =>
    refine BitVec.eq_of_getLsbD_eq fun i hi => ?_
    have hi₁ : 32 + i < 64 := by omega
    have hi₂ : i < 64 := by omega
    simp [hi, hi₁, hi₂]

-- The bits of both halves, before and after.
section Bits

theorem low_bit : ∀ i < 32, ∀ b : Bool, ((b && (0xfffff0000 : BitVec 64).getLsbD i || (0x800 : BitVec 64).getLsbD i) &&
    (0xfffff000 : BitVec 32).getLsbD i) = (b && (0xfffff0000 : BitVec 64).getLsbD i) := by decide

theorem high_bit : ∀ i < 32, ∀ b : Bool, ((b && (0x0f : BitVec 64).getLsbD i) && (0x0f : BitVec 64).getLsbD i) =
    (b && (0xfffff0000 : BitVec 64).getLsbD (32 + i)) := by decide

end Bits

-- The address that is read back lacks the bits 12-15.
theorem getAPICBase_setAPICBase : (σ.setAPICBase a).getAPICBase = a &&& 0xfffff0000 := by
  rw [getAPICBase, setAPICBase, getMSR_setMSR]
  apply BitVec.eq_of_getLsbD_eq
  intro i hi
  simp only [BitVec.getLsbD_or, BitVec.getLsbD_and, BitVec.getLsbD_setWidth, BitVec.getLsbD_shiftLeft,
    BitVec.getLsbD_ushiftRight]
  by_cases h : i < 32
  case pos =>
    simp only [h, hi, decide_true, Bool.true_and, Bool.not_true, Bool.and_false, Bool.false_and, Bool.or_false,
      low_bit i h]
  case neg =>
    have ⟨j, hj⟩ := Nat.exists_eq_add_of_le (Nat.not_lt.mp h)
    subst hj
    have hj : j < 32 := by omega
    have hj' : j < 64 := by omega
    simp only [h, hi, hj, hj', decide_true, decide_false, Bool.true_and, Bool.false_and, Bool.not_false, Bool.and_false,
      Bool.false_or, Nat.add_sub_cancel_left, high_bit j hj]

theorem toNat_and_mask : (a &&& 0xfffff0000).toNat = a.toNat / 2 ^ 16 % 2 ^ 20 * 2 ^ 16 := by
  have h : BitVec.toNat (0xfffff0000 : BitVec 64) = (2 ^ 20 - 1) * 2 ^ 16 := rfl
  rw [BitVec.toNat_and, h]
  refine Nat.eq_of_testBit_eq fun i => ?_
  rw [Nat.testBit_and, Nat.testBit_mul_two_pow, Nat.testBit_mul_two_pow, Nat.testBit_two_pow_sub_one,
    Nat.testBit_mod_two_pow, Nat.testBit_div_two_pow]
  by_cases hi : 16 ≤ i
  case pos => simp [hi, Bool.and_comm]
  case neg => simp [hi]

theorem and_mask_eq_iff : a &&& 0xfffff0000 = a ↔ a.toNat < 2 ^ 36 ∧ 2 ^ 16 ∣ a.toNat := by
  rw [← BitVec.toNat_inj, toNat_and_mask]
  omega

theorem relocates_of_and_mask (h : a &&& 0xfffff0000 = a) : σ.Relocates a := by
  have hb {σ : Processor} : (σ.setAPICBase a).getAPICBase = a := getAPICBase_setAPICBase.trans h
  refine ⟨hb, fun memory => ?_, ?_⟩
  case refine_1 => rw [lapicID, hb]; rfl
  case refine_2 => rw [setLAPICAddress, hb]; rfl

-- The APIC is found at an address if and only if this is a multiple of 64 KiB that has up to 36 bits.
theorem relocates_iff : σ.Relocates a ↔ a.toNat < 2 ^ 36 ∧ 2 ^ 16 ∣ a.toNat := by
  rw [← and_mask_eq_iff]
  exact ⟨fun hr => getAPICBase_setAPICBase.symm.trans hr.base, relocates_of_and_mask⟩

theorem relocates_default : σ.Relocates defaultAPICBase :=
  relocates_of_and_mask (by decide)

-- The page behind the default one.
theorem not_relocates : ¬∀ (σ : Processor) (a : BitVec 64), a.toNat < 2 ^ 36 → 4096 ∣ a.toNat → σ.Relocates a := by
  intro h
  have hr := h ⟨fun _ => 0, Memory.zero, 0, 0xffff800000000000⟩ 0xFEE01000 (by decide) (by decide)
  exact absurd (getAPICBase_setAPICBase.symm.trans hr.base) (by decide)

end Processor
