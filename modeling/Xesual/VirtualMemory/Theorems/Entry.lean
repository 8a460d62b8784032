import Xesual.VirtualMemory.Basic

-- The bits of page table entries and of virtual addresses.

theorem BitVec.toNat_append_eq {m n : Nat} (x : BitVec m) (y : BitVec n) :
    (x ++ y).toNat = x.toNat * 2 ^ n + y.toNat := by
  rw [BitVec.toNat_append, ← Nat.shiftLeft_add_eq_or_of_lt y.isLt, Nat.shiftLeft_eq]

namespace PageTableEntry

variable {e : PageTableEntry} {p : BitVec 64}

theorem extract_raw : e.raw.extractLsb' 12 40 = e.reserved ++ e.physicalAddress := by
  rw [raw, BitVec.extractLsb'_append_eq_of_le (by decide)]
  exact BitVec.extractLsb'_append_eq_right

-- The upper 12 bits of the frame are the ones of the field `_reserved`.
theorem toNat_frame : e.frame.toNat = 4096 * (2 ^ 28 * e.reserved.toNat + e.physicalAddress.toNat) := by
  have := e.reserved.isLt
  have := e.physicalAddress.isLt
  rw [frame, extract_raw, BitVec.toNat_setWidth, BitVec.toNat_append_eq, BitVec.toNat_append_eq,
    BitVec.toNat_ofNat]
  omega

theorem toNat_setPhysicalAddress :
    (e.setPhysicalAddress p).physicalAddress.toNat = p.toNat / 4096 % 2 ^ 28 := by
  simp [setPhysicalAddress, Nat.shiftRight_eq_div_pow]

-- The frame does not depend on the other fields.
theorem frame_congr {e' : PageTableEntry} (hr : e.reserved = e'.reserved)
    (hp : e.physicalAddress = e'.physicalAddress) : e.frame = e'.frame := by
  rw [frame, frame, extract_raw, extract_raw, hr, hp]

end PageTableEntry

namespace VirtualMemoryManagement

section Decoders

variable {π : Platform} {e : PageTableEntry} {p : BitVec 64}

-- `pe2v` reads the lower 20 bits of the field `physicalAddress` as a signed number.
theorem toNat_pe2v : (π.toPhysical (π.pe2v e)).toNat = 4096 * e.physicalAddress.toNat % 2 ^ 32 +
    (if e.physicalAddress.toNat % 2 ^ 20 < 2 ^ 19 then 0 else 2 ^ 64 - 2 ^ 32) := by
  have := e.physicalAddress.isLt
  rw [Platform.toPhysical, Platform.pe2v, BitVec.add_sub_cancel, BitVec.toNat_signExtend, BitVec.msb_eq_decide]
  simp [Nat.shiftLeft_eq]
  split <;> split <;> omega

theorem toNat_tableAddress :
    (π.toPhysical (π.tableAddress e)).toNat = 4096 * e.physicalAddress.toNat := by
  have := e.physicalAddress.isLt
  rw [Platform.toPhysical, Platform.tableAddress, Platform.toVirtual, BitVec.add_sub_cancel]
  simp [Nat.shiftLeft_eq]
  omega

theorem toVirtual_toPhysical : π.toVirtual (π.toPhysical p) = p :=
  BitVec.sub_add_cancel ..

theorem toPhysical_toVirtual : π.toPhysical (π.toVirtual p) = p :=
  BitVec.add_sub_cancel ..

theorem eq_toVirtual_iff {t : PageTableRef} : t = π.toVirtual p ↔ (π.toPhysical t).toNat = p.toNat := by
  rw [BitVec.toNat_inj]
  constructor
  case mp  => exact fun h => h ▸ toPhysical_toVirtual
  case mpr => exact fun h => h ▸ toVirtual_toPhysical.symm

theorem pe2v_congr {e' : PageTableEntry} (h : e.physicalAddress = e'.physicalAddress) :
    π.pe2v e = π.pe2v e' := by
  rw [Platform.pe2v, Platform.pe2v, h]

theorem tableAddress_congr {e' : PageTableEntry} (h : e.physicalAddress = e'.physicalAddress) :
    π.tableAddress e = π.tableAddress e' := by
  rw [Platform.tableAddress, Platform.tableAddress, h]

-- The address `p` has been stored in the entry `e`, and the result is read back by the processor, by `map`
-- and by `allocatePageTableForTableEntry`.
structure Agree (π : Platform) (e : PageTableEntry) (p : BitVec 64) : Prop where
  frame        : (e.setPhysicalAddress p).frame = p
  pe2v         : π.pe2v (e.setPhysicalAddress p) = π.toVirtual p
  tableAddress : π.tableAddress (e.setPhysicalAddress p) = π.toVirtual p

section

variable (aligned : 4096 ∣ p.toNat)
include aligned

theorem agree_of_lt (bounded : p.toNat < 2 ^ 31) (hr : e.reserved = 0) : Agree π e p := by
  have hp := e.toNat_setPhysicalAddress (p := p)
  constructor
  case frame =>
    have hr : (e.setPhysicalAddress p).reserved.toNat = 0 := by simp [PageTableEntry.setPhysicalAddress, hr]
    apply BitVec.eq_of_toNat_eq
    rw [PageTableEntry.toNat_frame, hr, hp]
    omega
  case pe2v =>
    rw [eq_toVirtual_iff, toNat_pe2v, hp, if_pos] <;> omega
  case tableAddress =>
    rw [eq_toVirtual_iff, toNat_tableAddress, hp]
    omega

-- The address that is computed by `map` is only the right one for the lower 2 GiB of physical memory.
theorem agree_iff (bounded : p.toNat < 2 ^ 52) : Agree π e p ↔ p.toNat < 2 ^ 31 ∧ e.reserved = 0 := by
  constructor
  case mp =>
    intro a
    have hp := e.toNat_setPhysicalAddress (p := p)
    have hf := congrArg BitVec.toNat a.frame
    have hv := eq_toVirtual_iff.mp a.pe2v
    rw [PageTableEntry.toNat_frame, hp] at hf
    rw [toNat_pe2v, hp] at hv
    have h31 : p.toNat < 2 ^ 31 := by split at hv <;> omega
    refine ⟨h31, BitVec.eq_of_toNat_eq (x := e.reserved) ?_⟩
    have : (e.setPhysicalAddress p).reserved.toNat = e.reserved.toNat := rfl
    simp only [BitVec.ofNat_eq_ofNat, BitVec.toNat_ofNat, Nat.zero_mod]
    omega
  case mpr => exact fun ⟨h31, h0⟩ => agree_of_lt aligned h31 h0

end

-- The first frame of physical memory is stored in an entry of an empty table.
theorem agree_iff_zero : Agree ⟨0xffff800000000000, fun _ => 0⟩ .zero 0x1000 :=
  (agree_iff (by decide) (by decide)).mpr (by decide)

-- At 2 GiB, `map` continues at an address that lies 4 GiB too low.
theorem not_agree : ¬∀ (π : Platform) (e : PageTableEntry) (p : BitVec 64), 4096 ∣ p.toNat →
    p.toNat < 2 ^ 52 → Agree π e p := by
  intro h
  have := h ⟨0xffff800000000000, fun _ => 0⟩ .zero 0x80000000 (by decide) (by decide) |>.pe2v
  exact absurd this (by decide)

end Decoders

section Free

variable {π : Platform} {s : State} {t : PageTableRef} {i : BitVec 9}

theorem toNat_freePageForTableEntry :
    (freePageForTableEntry s t i).snd.toNat = 4096 * (s.tables t i).physicalAddress.toNat % 2 ^ 32 +
      (if (s.tables t i).physicalAddress.toNat % 2 ^ 20 < 2 ^ 19 then 0 else 2 ^ 64 - 2 ^ 32) := by
  have hp := toNat_pe2v (π := ⟨0, fun _ => 0⟩) (e := s.tables t i)
  rwa [Platform.toPhysical, Platform.pe2v, BitVec.add_sub_cancel] at hp

theorem isPresent_freePageForTableEntry :
    ((freePageForTableEntry s t i).fst.tables t i).isPresent = false := by
  simp only [freePageForTableEntry, State.write, Trie.write_self]

theorem tables_allocatePageForTableEntry (h : (allocatePageForTableEntry π s t i).snd = true) :
    (allocatePageForTableEntry π s t i).fst.tables t i =
      (s.tables t i).refer (π.toPhysical (π.page s.allocated)) := by
  by_cases h0 : π.page s.allocated = 0
  case pos => simp [allocatePageForTableEntry, allocatePage, h0] at h
  case neg => simp only [allocatePageForTableEntry, allocatePage, h0, ↓reduceIte, State.write, Trie.write_self]

theorem freed_eq_iff {f o p q : Nat} (hf : f < 2 ^ 64) (hp : p = (2 ^ 64 - o + f) % 2 ^ 64)
    (hq : q = p / 4096 % 2 ^ 28) :
    4096 * q % 2 ^ 32 + (if q % 2 ^ 20 < 2 ^ 19 then 0 else 2 ^ 64 - 2 ^ 32) = f ↔
      4096 ∣ f ∧ (f < 2 ^ 31 ∨ 2 ^ 64 - 2 ^ 31 ≤ f) ∧ (2 ^ 64 - o) % 2 ^ 32 < 4096 := by
  split <;> omega

-- The page that has been allocated for an entry is only freed again if its address survives the conversion to a
-- physical address of 32 bits and back to 64 bits, in which the offset is not added again.
theorem freed_iff (h : (allocatePageForTableEntry π s t i).snd = true) :
    let f := π.page s.allocated
    let (s', v) := freePageForTableEntry (allocatePageForTableEntry π s t i).fst t i
    (v = f ∧ (s'.tables t i).isPresent = false) ↔
      4096 ∣ f.toNat ∧ (f.toNat < 2 ^ 31 ∨ 2 ^ 64 - 2 ^ 31 ≤ f.toNat) ∧
        (2 ^ 64 - π.HigherHalfDirectMapOffset.toNat) % 2 ^ 32 < 4096 := by
  have hp : (π.toPhysical (π.page s.allocated)).toNat =
      (2 ^ 64 - π.HigherHalfDirectMapOffset.toNat + (π.page s.allocated).toNat) % 2 ^ 64 := BitVec.toNat_sub ..
  have hq := (s.tables t i).toNat_setPhysicalAddress (p := π.toPhysical (π.page s.allocated))
  have hv := toNat_freePageForTableEntry (s := (allocatePageForTableEntry π s t i).fst) (t := t) (i := i)
  rw [tables_allocatePageForTableEntry h] at hv
  have hi := freed_eq_iff (BitVec.isLt _) hp hq
  dsimp only
  rw [← hi, ← BitVec.toNat_inj, hv]
  exact and_iff_left isPresent_freePageForTableEntry

-- The direct mapping is in the last 4 GiB of the address space, and the page in their upper half.
theorem freed_topmost :
    let π : Platform := ⟨0xffffffff00000000, fun _ => 0xffffffff80001000⟩
    (freePageForTableEntry (allocatePageForTableEntry π ⟨fun _ _ => .zero, 0⟩ 0 0).fst 0 0).snd =
      0xffffffff80001000 :=
  (freed_iff (π := ⟨0xffffffff00000000, fun _ => 0xffffffff80001000⟩) (s := ⟨fun _ _ => .zero, 0⟩)
    (t := 0) (i := 0) rfl).mpr ⟨by decide, by decide, by decide⟩ |>.left

-- The physical address is freed instead of the virtual one.
theorem not_freed : ¬∀ (π : Platform) (s : State) (t : PageTableRef) (i : BitVec 9),
    (allocatePageForTableEntry π s t i).snd = true →
    let (s', v) := freePageForTableEntry (allocatePageForTableEntry π s t i).fst t i
    v = π.page s.allocated ∧ (s'.tables t i).isPresent = false := by
  intro h
  have hf := (h ⟨0xffff800000000000, fun _ => 0xffff800000001000⟩ ⟨fun _ _ => .zero, 0⟩ 0 0 rfl).left
  exact absurd hf (by decide)

end Free

section Indices

variable {v w : BitVec 64}

-- The indices that `map` computes are the ones that are used by the processor.
theorem index_eq {k : Nat} (h : k ≤ 27) :
    ((pageAddress v >>> k) &&& 0x1FF).setWidth 9 = v.extractLsb' (12 + k) 9 := by
  have mask₄₈ (j : Nat) : (0xFFFFffffFFFF : BitVec 64).getLsbD j = decide (j < 48) :=
    Nat.testBit_two_pow_sub_one 48 j
  have mask₉ (j : Nat) : (0x1FF : BitVec 64).getLsbD j = decide (j < 9) :=
    Nat.testBit_two_pow_sub_one 9 j
  apply BitVec.eq_of_getLsbD_eq
  intro i hi
  have h48 : 12 + (k + i) < 48 := by omega
  simp only [pageAddress, BitVec.getLsbD_setWidth, BitVec.getLsbD_and, BitVec.getLsbD_ushiftRight,
    BitVec.getLsbD_extractLsb', mask₄₈, mask₉, hi, h48, decide_true, Bool.and_true, Bool.true_and, Nat.add_assoc]

theorem level4Index_eq : level4Index v = v.extractLsb' 39 9 := index_eq (by decide)
theorem level3Index_eq : level3Index v = v.extractLsb' 30 9 := index_eq (by decide)
theorem level2Index_eq : level2Index v = v.extractLsb' 21 9 := index_eq (by decide)
theorem level1Index_eq : level1Index v = v.extractLsb' 12 9 := by
  rw [level1Index, ← index_eq (Nat.zero_le _), BitVec.ushiftRight_zero]

-- The bits 12-47 of a virtual address are the ones of its four indices.
theorem samePage_iff : v.extractLsb' 12 36 = w.extractLsb' 12 36 ↔
    level4Index v = level4Index w ∧ level3Index v = level3Index w ∧ level2Index v = level2Index w ∧
    level1Index v = level1Index w := by
  simp only [level4Index_eq, level3Index_eq, level2Index_eq, level1Index_eq, ← BitVec.toNat_inj,
    BitVec.extractLsb'_toNat, Nat.shiftRight_eq_div_pow]
  omega

end Indices
end VirtualMemoryManagement
