import Xesual.Segments.Theorems.Descriptors

-- Which selectors are accepted by the processor.

namespace Segments

variable {table stackLocation : BitVec 64} {m : Memory} {cs ss selector : BitVec 16} {cpl : BitVec 2} {f : Table.Member}
  {p : Descriptor → Bool}

namespace Table

def segments : List Member :=
  [.nullEntry, .kernelCode, .kernelData, .userCode32, .userData32, .userCode64, .userData64]

-- The table has not been changed since `Table::init`, except that descriptors have been used.
structure Intact (table : BitVec 64) (m : Memory) : Prop where
  segment : ∀ f ∈ segments,
    Descriptor.ofBits (m.load (table + .ofNat 64 (offsetof f))) = Descriptor.ofBits (entry f).bits
  system  : ∀ i ∈ [56, 64], (Descriptor.ofBits (m.load (table + .ofNat 64 i))).isUserSegment = false

-- The descriptor of a segment that a selector refers to.
def descriptor (selector : BitVec 16) : Option Descriptor :=
  if !isNull selector && !selector.getLsbD 2 then
    (segments.find? fun f => offsetof f == (selector &&& 0xfff8).toNat).map fun f => .ofBits (entry f).bits
  else none

end Table

open Table

section Lookup

theorem toNat_and_mask : (selector &&& 0xfff8).toNat = selector.toNat / 8 * 8 := by
  have h : selector &&& (0xfff8 : BitVec 16) = (selector >>> 3) <<< 3 := by
    have hm (i : Nat) (hi : i < 16) : (0xfff8 : BitVec 16).getLsbD i = decide (3 ≤ i) := by interval_cases i <;> rfl
    apply BitVec.eq_of_getLsbD_eq
    intro i hi
    simp only [BitVec.getLsbD_and, BitVec.getLsbD_shiftLeft, BitVec.getLsbD_ushiftRight, hm i hi]
    grind
  rw [h, BitVec.toNat_shiftLeft, BitVec.toNat_ushiftRight, Nat.shiftRight_eq_div_pow, Nat.shiftLeft_eq]
  omega

theorem offsetof_theTSSEntryItself : offsetof .theTSSEntryItself = 72 := by decide

theorem address_eq : (tableRegister table).address selector = table + .ofNat 64 (selector.toNat / 8 * 8) := by
  rw [TableRegister.address, tableRegister]
  congr 1
  apply BitVec.eq_of_toNat_eq
  rw [BitVec.toNat_setWidth, toNat_and_mask, BitVec.toNat_ofNat]

-- The entries for segments are the first seven ones.
theorem find_segments {q : Nat} (hq : q < 7) :
    ∃ f ∈ segments, segments.find? (fun f => offsetof f == q * 8) = some f ∧ offsetof f = q * 8 := by
  interval_cases q <;> decide

theorem find_segments_eq_none {q : Nat} (hq : 7 ≤ q) : segments.find? (fun f => offsetof f == q * 8) = none := by
  have h : ∀ f ∈ segments, offsetof f ≤ 48 := by decide
  refine List.find?_eq_none.mpr fun f hf => ?_
  have hf := h f hf
  simp only [beq_iff_eq]
  omega

-- A condition that is only met by segments can be checked without looking at the memory.
theorem any_lookup (h : Intact table m) (hp : ∀ d, p d → d.isUserSegment) :
    ((tableRegister table).lookup m selector).any p = (descriptor selector).any p := by
  have hlimit : (tableRegister table).limit.toNat = 71 := by
    rw [tableRegister, offsetof_theTSSEntryItself]
    rfl
  rw [TableRegister.lookup, descriptor, address_eq, toNat_and_mask, hlimit]
  generalize (!isNull selector && !selector.getLsbD 2) = b
  generalize selector.toNat / 8 = q
  cases b
  case false => rfl
  case true =>
    simp only [Bool.true_and, decide_eq_true_eq, ↓reduceIte]
    by_cases hq : q < 7
    case pos =>
      obtain ⟨f, hf, hfind, ho⟩ := find_segments hq
      rw [hfind, if_pos (by omega), ← ho, h.segment f hf]
      rfl
    case neg =>
      rw [find_segments_eq_none (Nat.le_of_not_lt hq)]
      split
      case isFalse => rfl
      case isTrue hle =>
        have hs : (Descriptor.ofBits (m.load (table + .ofNat 64 (q * 8)))).isUserSegment = false := by
          have hq : q * 8 ∈ [56, 64] := by
            simp only [List.mem_cons, List.not_mem_nil, or_false]
            omega
          exact h.system _ hq
        refine Bool.eq_false_iff.mpr fun hd => ?_
        rw [hp _ hd] at hs
        exact Bool.noConfusion hs

end Lookup

section Acceptance

-- A code segment that can be loaded.
def isLoadable (cpl rpl : BitVec 2) (d : Descriptor) : Bool :=
  d.isCode && d.present && cpl ≤ rpl && !(d.isLongModeCode && d.size) &&
    if d.conforming then d.privilegeLevel ≤ rpl else d.privilegeLevel == rpl

theorem descriptor_eq_none (h : 56 ≤ selector.toNat) : descriptor selector = none := by
  rw [descriptor, toNat_and_mask, find_segments_eq_none (by omega), Option.map_none, ite_self]

-- There are few selectors for which the table has to be looked at.
theorem forall_selector {q : BitVec 16 → Bool} (h : (List.range 56).all fun n => q (.ofNat 16 n))
    (h' : ∀ selector : BitVec 16, 56 ≤ selector.toNat → q selector) : q selector := by
  by_cases hs : 56 ≤ selector.toNat
  case pos => exact h' selector hs
  case neg =>
    have h := List.all_eq_true.mp h selector.toNat (List.mem_range.mpr (by omega))
    rwa [BitVec.ofNat_toNat, BitVec.setWidth_eq] at h

theorem ne_of_le_toNat {n : Nat} (h : 56 ≤ selector.toNat) (hn : n < 56) : (selector == .ofNat 16 n) = false := by
  refine beq_eq_false_iff_ne.mpr fun hs => ?_
  rw [hs, BitVec.toNat_ofNat] at h
  omega

-- Ring 0 can load its own code segment and those of ring 3, and ring 3 can only load the latter.
theorem acceptsCode_eq (h : Intact table m) : acceptsCode (tableRegister table) m cpl cs =
    (cs == 8 && cpl == 0 || cs == 0x1b || cs == 0x2b) := by
  have hp : ∀ d, isLoadable cpl (privilegeLevel cs) d → d.isUserSegment := by
    intro d hd
    simp only [isLoadable, Descriptor.isCode, Bool.and_eq_true] at hd
    tauto
  have htable : ∀ cpl : BitVec 2, (List.range 56).all fun n =>
      (descriptor (.ofNat 16 n)).any (isLoadable cpl (privilegeLevel (.ofNat 16 n))) ==
        (BitVec.ofNat 16 n == 8 && cpl == 0 || BitVec.ofNat 16 n == 0x1b || BitVec.ofNat 16 n == 0x2b) := by decide
  have ha : acceptsCode (tableRegister table) m cpl cs = _ := any_lookup h hp
  rw [ha]
  refine eq_of_beq ?_
  refine forall_selector (q := fun cs => (descriptor cs).any (isLoadable cpl (privilegeLevel cs)) ==
    (cs == 8 && cpl == 0 || cs == 0x1b || cs == 0x2b)) (htable cpl) fun cs hcs => ?_
  have h₈ : (cs == 8) = false := ne_of_le_toNat hcs (by decide)
  have h₁ : (cs == 0x1b) = false := ne_of_le_toNat hcs (by decide)
  have h₂ : (cs == 0x2b) = false := ne_of_le_toNat hcs (by decide)
  rw [descriptor_eq_none hcs, h₈, h₁, h₂]
  rfl

-- A stack segment that can be used at a privilege level.
def isStack (rpl : BitVec 2) (d : Descriptor) : Bool :=
  d.isWriteableData && d.present && d.privilegeLevel == rpl

theorem not_isNull (h : 8 ≤ selector.toNat) : isNull selector = false := by
  refine beq_eq_false_iff_ne.mpr fun hn => ?_
  have hz : selector &&& (0xfff8 : BitVec 16) = 0 := by
    have hm : (0xfff8 : BitVec 16) = 0xfffc &&& 0xfff8 := rfl
    rw [hm, ← BitVec.and_assoc, hn]
    rfl
  have h₀ : (selector &&& 0xfff8).toNat = 0 := congrArg BitVec.toNat hz
  rw [toNat_and_mask] at h₀
  omega

-- The stack segments of a privilege level. It can be null in ring 0.
def stackSelectors (cpl : BitVec 2) : List (BitVec 16) :=
  if cpl = 0 then [0, 0x10] else if cpl = 3 then [0x23, 0x33] else []

-- The condition without the memory.
def isStackSelector (cpl : BitVec 2) (ss : BitVec 16) : Bool :=
  privilegeLevel ss == cpl && if isNull ss then cpl != 3 else (descriptor ss).any (isStack cpl)

theorem isStackSelector_eq (h : cpl = 0 ∨ cpl = 3) : isStackSelector cpl ss = (stackSelectors cpl).contains ss := by
  have htable : ∀ cpl : BitVec 2, cpl = 0 ∨ cpl = 3 → (List.range 56).all fun n =>
      isStackSelector cpl (.ofNat 16 n) == (stackSelectors cpl).contains (.ofNat 16 n) := by decide
  refine eq_of_beq ?_
  refine forall_selector (q := fun ss => isStackSelector cpl ss == (stackSelectors cpl).contains ss) (htable cpl h)
    fun ss hss => ?_
  have hsmall : (stackSelectors cpl).all (·.toNat < 56) := by obtain rfl | rfl := h <;> rfl
  have hmem : (stackSelectors cpl).contains ss = false := by
    refine Bool.eq_false_iff.mpr fun hm => ?_
    have hlt := List.all_eq_true.mp hsmall ss (List.contains_iff_mem.mp hm)
    rw [decide_eq_true_eq] at hlt
    omega
  rw [hmem, isStackSelector, not_isNull (by omega), descriptor_eq_none hss]
  simp

theorem acceptsStack_eq (h : Intact table m) (hl : privilegeLevel cs = 0 ∧ isLong (tableRegister table) m cs ∨
    privilegeLevel cs = 3) :
    acceptsStack (tableRegister table) m cs ss = (stackSelectors (privilegeLevel cs)).contains ss := by
  have hp : ∀ d, isStack (privilegeLevel cs) d → d.isUserSegment := by
    intro d hd
    simp only [isStack, Descriptor.isWriteableData, Bool.and_eq_true] at hd
    tauto
  have ha : ((tableRegister table).lookup m ss).any (isStack (privilegeLevel cs)) = _ := any_lookup h hp
  have hnull : (isLong (tableRegister table) m cs && privilegeLevel cs != 3) = (privilegeLevel cs != 3) := by
    obtain ⟨_, hlong⟩ | hl := hl
    · rw [hlong, Bool.true_and]
    · rw [hl]
      exact Bool.and_false _
  rw [← isStackSelector_eq (hl.imp And.left id), isStackSelector, ← ha, ← hnull]
  rfl

-- Everything that can be loaded by `iretq`.
theorem accepts_iff (h : Intact table m) :
    acceptsCode (tableRegister table) m cpl cs ∧ acceptsStack (tableRegister table) m cs ss ↔
      cpl = 0 ∧ cs = 8 ∧ (ss = 0 ∨ ss = 0x10) ∨ (cs = 0x1b ∨ cs = 0x2b) ∧ (ss = 0x23 ∨ ss = 0x33) := by
  have hlong : isLong (tableRegister table) m 8 := by
    have hd : (tableRegister table).lookup m 8 = some (.ofBits (m.load (table + .ofNat 64 (offsetof .kernelCode)))) := rfl
    rw [isLong, hd, h.segment .kernelCode (by decide)]
    decide
  have h₀ : acceptsStack (tableRegister table) m 8 ss ↔ ss = 0 ∨ ss = 0x10 := by
    rw [acceptsStack_eq h (.inl ⟨rfl, hlong⟩)]
    exact List.contains_iff_mem.trans List.mem_pair
  have h₃ (hc : cs = 0x1b ∨ cs = 0x2b) : acceptsStack (tableRegister table) m cs ss ↔ ss = 0x23 ∨ ss = 0x33 := by
    have hl : privilegeLevel cs = 3 := by obtain rfl | rfl := hc <;> rfl
    rw [acceptsStack_eq h (.inr hl), hl]
    exact List.contains_iff_mem.trans List.mem_pair
  rw [acceptsCode_eq h]
  simp only [Bool.or_eq_true, Bool.and_eq_true, beq_iff_eq]
  constructor
  case mp =>
    rintro ⟨(⟨rfl, hcpl⟩ | hc) | hc, hs⟩
    · exact .inl ⟨hcpl, rfl, h₀.mp hs⟩
    · exact .inr ⟨.inl hc, (h₃ (.inl hc)).mp hs⟩
    · exact .inr ⟨.inr hc, (h₃ (.inr hc)).mp hs⟩
  case mpr =>
    rintro (⟨hcpl, rfl, hs⟩ | ⟨hc, hs⟩)
    · exact ⟨.inl (.inl ⟨rfl, hcpl⟩), h₀.mpr hs⟩
    · exact ⟨hc.elim (fun hc => .inl (.inr hc)) .inr, (h₃ hc).mpr hs⟩

end Acceptance
end Segments
