import Xesual.Segments.Processor

-- What the processor reads from the entries of the table.

namespace Segments

open BitVec

variable {entry : Entry} {limit base : BitVec 32} {access : UserAccessByte} {flags : Flags} {w : BitVec 64} {i n : Nat}

section Fields

theorem getLsbD_bits : entry.bits.getLsbD i =
    if i < 16 then entry.limitLow.getLsbD i
    else if i < 32 then entry.baseLow.getLsbD (i - 16)
    else if i < 40 then entry.baseMid.getLsbD (i - 32)
    else if i < 48 then entry.access.getLsbD (i - 40)
    else if i < 52 then entry.limitHigh.getLsbD (i - 48)
    else if i < 56 then entry.flags.getLsbD (i - 52)
    else entry.baseHigh.getLsbD (i - 56) := by
  simp only [Entry.bits, getLsbD_append]
  grind

theorem base_ofBits : (Descriptor.ofBits entry.bits).base = entry.baseHigh ++ (entry.baseMid ++ entry.baseLow) := by
  apply eq_of_getLsbD_eq
  intro i hi
  simp only [Descriptor.ofBits, getLsbD_append, getLsbD_extractLsb', getLsbD_bits]
  grind

theorem limit_ofBits : (Descriptor.ofBits entry.bits).limit = entry.limitHigh ++ entry.limitLow := by
  apply eq_of_getLsbD_eq
  intro i hi
  simp only [Descriptor.ofBits, getLsbD_append, getLsbD_extractLsb', getLsbD_bits]
  grind

theorem privilegeLevel_ofBits : (Descriptor.ofBits entry.bits).privilegeLevel = entry.access.extractLsb' 5 2 := by
  apply eq_of_getLsbD_eq
  intro i hi
  simp only [Descriptor.ofBits, getLsbD_extractLsb', getLsbD_bits]
  grind

-- The bits of an access byte and of the flags.
theorem getLsbD_access (h : i < 8) : access.bits.getLsbD i =
    if i = 0 then access.accessed
    else if i = 1 then access.readableWriteable
    else if i = 2 then access.directionConforming
    else if i = 3 then access.executable
    else if i = 4 then access.isUserSegment
    else if i < 7 then access.descriptorPrivilegeLevel.getLsbD (i - 5)
    else access.present := by
  interval_cases i <;> simp only [UserAccessByte.bits, getLsbD_append, getLsbD_ofBool] <;> rfl

theorem getLsbD_flags (h : i < 4) : flags.bits.getLsbD i =
    if i = 0 then flags.reserved
    else if i = 1 then flags.isLongModeCode
    else if i = 2 then flags.size
    else flags.granularity := by
  interval_cases i <;> simp only [Flags.bits, getLsbD_append, getLsbD_ofBool] <;> rfl

end Fields

section Splitting

theorem getLsbD_mask8 (h : i < 8) : (0xff : BitVec 32).getLsbD i := by
  interval_cases i <;> rfl

theorem getLsbD_mask16 (h : i < 16) : (0xffff : BitVec 32).getLsbD i := by
  interval_cases i <;> rfl

-- The parts of a base address are put together again.
theorem append_base : (base >>> 24 &&& 0xff).setWidth 8 ++
    ((base >>> 16 &&& 0xff).setWidth 8 ++ (base &&& 0xffff).setWidth 16) = base := by
  apply eq_of_getLsbD_eq
  intro i hi
  simp only [getLsbD_append, getLsbD_setWidth, getLsbD_and, getLsbD_ushiftRight]
  grind [getLsbD_mask8, getLsbD_mask16]

-- There is room for 20 bits of a limit.
theorem append_limit : (limit >>> 16 &&& 0xff).setWidth 4 ++ (limit &&& 0xffff).setWidth 16 = limit.setWidth 20 := by
  apply eq_of_getLsbD_eq
  intro i hi
  simp only [getLsbD_append, getLsbD_setWidth, getLsbD_and, getLsbD_ushiftRight]
  grind [getLsbD_mask8, getLsbD_mask16]

end Splitting

-- Everything is read back as it has been written, except for the upper 12 bits of the limit.
theorem ofBits_userEntry : Descriptor.ofBits (userEntry limit base access flags).bits =
    { base              := base
      limit             := limit.setWidth 20
      readableWriteable := access.readableWriteable
      conforming        := access.directionConforming
      executable        := access.executable
      isUserSegment     := access.isUserSegment
      privilegeLevel    := access.descriptorPrivilegeLevel
      present           := access.present
      isLongModeCode    := flags.isLongModeCode
      size              := flags.size
      granularity       := flags.granularity } := by
  have hbase : (Descriptor.ofBits (userEntry limit base access flags).bits).base = base :=
    base_ofBits.trans append_base
  have hlimit : (Descriptor.ofBits (userEntry limit base access flags).bits).limit = limit.setWidth 20 :=
    limit_ofBits.trans append_limit
  have hlevel : (Descriptor.ofBits (userEntry limit base access flags).bits).privilegeLevel =
      access.descriptorPrivilegeLevel := by
    rw [privilegeLevel_ofBits]
    apply eq_of_getLsbD_eq
    intro i hi
    have h : i < 2 ∧ 5 + i < 8 := ⟨hi, by omega⟩
    simp only [userEntry, getLsbD_extractLsb', getLsbD_access h.right, h.left]
    grind
  rw [Descriptor.mk.injEq]
  refine ⟨hbase, hlimit, ?_, ?_, ?_, ?_, hlevel, ?_, ?_, ?_, ?_⟩
  all_goals refine getLsbD_bits.trans ?_
  iterate 5 exact getLsbD_access (by decide)
  iterate 3 exact getLsbD_flags (by decide)

-- The processor reads back what has been asked for, but the limit is only the right one if it has 20 bits.
theorem userEntry_roundTrip :
    (∃ limit', Descriptor.ofBits (userEntry limit base access flags).bits =
      ⟨base, limit', access.readableWriteable, access.directionConforming, access.executable, access.isUserSegment,
        access.descriptorPrivilegeLevel, access.present, flags.isLongModeCode, flags.size, flags.granularity⟩) ∧
    ((Descriptor.ofBits (userEntry limit base access flags).bits).lastByte =
      (if flags.granularity then limit.toNat * 4096 + 4095 else limit.toNat) ↔ limit.toNat < 2 ^ 20) := by
  have hd : Descriptor.ofBits (userEntry limit base access flags).bits = _ := ofBits_userEntry
  refine ⟨⟨_, hd⟩, ?_⟩
  rw [hd]
  simp only [Descriptor.lastByte, toNat_setWidth]
  split <;> omega

-- The processor does not distinguish descriptors that have been used from others.
theorem ofBits_or_accessedBit : Descriptor.ofBits (w ||| accessedBit) = Descriptor.ofBits w := by
  have h (i : Nat) : accessedBit.getLsbD i = (i == 40) := by
    by_cases hi : i < 64
    case pos => interval_cases i <;> rfl
    case neg =>
      rw [getLsbD_of_ge _ _ (by omega)]
      grind
  have he (i n : Nat) (hi : i + n ≤ 40 ∨ 40 < i) : (w ||| accessedBit).extractLsb' i n = w.extractLsb' i n := by
    apply eq_of_getLsbD_eq
    intro j hj
    simp only [getLsbD_extractLsb', getLsbD_or, h]
    grind
  simp only [Descriptor.ofBits, getLsbD_or, h, he 56 8 (by decide), he 16 24 (by decide), he 48 4 (by decide),
    he 0 16 (by decide), he 45 2 (by decide)]
  simp

section TaskStateSegment

variable {address : BitVec 64} {size : BitVec 16} {system : SystemAccessByte}

theorem systemBase_systemEntry :
    systemBase (systemEntry size address system flags).bits (systemEntry size address system flags).highBits =
      address := by
  have h8 {i : Nat} (h : i < 8) : (0xff : BitVec 64).getLsbD i := by interval_cases i <;> rfl
  have h16 {i : Nat} (h : i < 16) : (0xffff : BitVec 64).getLsbD i := by interval_cases i <;> rfl
  have h32 {i : Nat} (h : i < 32) : (0xffffffff : BitVec 64).getLsbD i := by interval_cases i <;> rfl
  rw [systemBase, base_ofBits]
  apply eq_of_getLsbD_eq
  intro i hi
  simp only [systemEntry, SystemEntry.highBits, getLsbD_append, getLsbD_setWidth, getLsbD_and, getLsbD_ushiftRight,
    getLsbD_extractLsb']
  grind

end TaskStateSegment
end Segments
