import Xesual.Pci.Registers
import Xesual.Pci.Theorems.Enumeration

namespace PCI

variable {p q : Position} {field k : Nat} {size : Size} {value : BitVec 32} {s : Ports}

section Address

theorem addressOf_eq {device : BitVec 32} {f : Field} : addressOf device f = addressAt device f.offset := rfl

theorem toNat_dword : ∀ field < 256, (BitVec.ofNat 32 field &&& 0xFC).toNat = 4 * (field / 4) := by
  decide +kernel

-- The address of the first byte of a device.
def Position.base (p : Position) : Nat :=
  2 ^ 31 + p.bus * 2 ^ 16 + p.slot * 2 ^ 11 + p.func * 2 ^ 8

theorem toNat_addressAt_ofNat (hp : p.bus < 256 ∧ p.slot < 32 ∧ p.func < 8) (hf : field < 256) :
    (addressAt p.device (.ofNat 32 field)).toNat = p.base + 4 * (field / 4) := by
  rw [toNat_addressAt hp, toNat_dword field hf, Position.base]

theorem byte_eq (hp : p.bus < 256 ∧ p.slot < 32 ∧ p.func < 8) (hk : k < 256) :
    s.byte p k = s.storage (p.base + k) := by
  rw [Ports.byte, toNat_addressAt_ofNat hp hk]
  congr 1
  omega

-- Different fields of different devices have different addresses.
theorem base_inj (hp : p.bus < 256 ∧ p.slot < 32 ∧ p.func < 8) (hq : q.bus < 256 ∧ q.slot < 32 ∧ q.func < 8)
    {j : Nat} (hj : j < 256) (hk : k < 256) (h : p.base + j = q.base + k) : p = q ∧ j = k := by
  obtain ⟨bus, slot, func⟩ := p
  obtain ⟨bus', slot', func'⟩ := q
  simp only [Position.base, Position.mk.injEq] at *
  omega

end Address

namespace Ports

theorem outl_address {data : BitVec 32} : s.outl AddressPort data = { s with address := data } := rfl

theorem storage_writeField {device field : BitVec 32} : (s.writeField device field size value).storage =
    s.storage.store (addressAt device field).toNat 4 value.toNat := rfl

section Read

-- The ports from which a field is read.
theorem toNat_port_one : ∀ field < 256,
    (ValuePort + (BitVec.ofNat 32 field &&& 0b11).setWidth 16 - ValuePort).toNat = field % 4 := by
  decide +kernel

theorem toNat_port_two : ∀ field < 256,
    2 ∣ field → (ValuePort + (BitVec.ofNat 32 field &&& 0b10).setWidth 16 - ValuePort).toNat = field % 4 := by
  decide +kernel

theorem toNat_readField {device : BitVec 32} (hf : field < 256) (hd : size.bytes ∣ field) :
    (s.readField size device (.ofNat 32 field)).fst.toNat =
      s.storage.load ((addressAt device (.ofNat 32 field)).toNat + field % 4) size.bytes := by
  generalize ha : addressAt device (.ofNat 32 field) = a
  have hl (n : Nat) : s.storage.load (a.toNat + field % 4) n < 256 ^ n := Bytes.load_lt
  cases size
  case one =>
    have hl := hl 1
    simp only [readField, outl_address, inb, input, ha, toNat_port_one field hf, Size.bytes, BitVec.toNat_setWidth,
      BitVec.toNat_ofNat]
    omega
  case two =>
    have hl := hl 2
    simp only [readField, outl_address, ins, input, ha, toNat_port_two field hf hd, Size.bytes, BitVec.toNat_setWidth,
      BitVec.toNat_ofNat]
    omega
  case four =>
    have hl := hl 4
    have hm : field % 4 = 0 := Nat.mod_eq_zero_of_dvd hd
    simp only [readField, outl_address, inl, input, ha, Size.bytes, BitVec.toNat_ofNat, BitVec.sub_self, Nat.zero_mod,
      hm] at hl ⊢
    omega

-- A field does not cross a double word.
theorem mod_add_bytes_le (hd : size.bytes ∣ field) : field % 4 + size.bytes ≤ 4 := by
  cases size <;> simp only [Size.bytes] at hd ⊢ <;> omega

-- The configuration space as it is seen by the enumeration.
def config (s : Ports) : Config :=
  fun address => .ofNat 32 (s.storage.load address.toNat 4)

-- The enumeration reads what is found behind the ports.
theorem read_config {device : BitVec 32} {f : Field} (hd : size.bytes ∣ f.offset.toNat) :
    s.config.read ⟨size, device, f⟩ = (s.readField size device f.offset).fst := by
  have hf : f.offset.toNat < 256 := by cases f <;> decide
  have ho : BitVec.ofNat 32 f.offset.toNat = f.offset := by rw [BitVec.ofNat_toNat, BitVec.setWidth_eq]
  have h : (s.readField size device (.ofNat 32 f.offset.toNat)).fst.toNat = _ := toNat_readField hf hd
  have hshift : (f.offset &&& 0b11).toNat = f.offset.toNat % 4 ∧
      (2 ∣ f.offset.toNat → (f.offset &&& 0b10).toNat = f.offset.toNat % 4) := by
    cases f <;> decide
  rw [ho] at h
  apply BitVec.eq_of_toNat_eq
  rw [h, ← Bytes.load_div_mod (mod_add_bytes_le hd), Config.read, addressOf_eq]
  generalize addressAt device f.offset = a
  have hl : s.storage.load a.toNat 4 < 2 ^ 32 := Bytes.load_lt
  have hpow (n : Nat) : 2 ^ (8 * n) = 256 ^ n := Nat.pow_mul 2 8 n
  have hc : s.config a = .ofNat 32 (s.storage.load a.toNat 4) := rfl
  cases size
  case one =>
    rw [Config.input, hc, BitVec.toNat_setWidth, BitVec.toNat_setWidth, BitVec.toNat_ushiftRight, BitVec.toNat_ofNat,
      hshift.left, Nat.shiftRight_eq_div_pow, hpow, Nat.mod_eq_of_lt hl, Size.bytes]
    omega
  case two =>
    rw [Config.input, hc, BitVec.toNat_setWidth, BitVec.toNat_setWidth, BitVec.toNat_ushiftRight, BitVec.toNat_ofNat,
      hshift.right hd, Nat.shiftRight_eq_div_pow, hpow, Nat.mod_eq_of_lt hl, Size.bytes]
    omega
  case four =>
    have hm : f.offset.toNat % 4 = 0 := Nat.mod_eq_zero_of_dvd hd
    have hl' : s.storage.load a.toNat 4 < 256 ^ 4 := Bytes.load_lt
    have hr : (s.config a).toNat = s.storage.load a.toNat 4 := by
      rw [hc, BitVec.toNat_ofNat, Nat.mod_eq_of_lt hl]
    rw [Config.input, hr, hm, Nat.pow_zero, Nat.div_one, Size.bytes, Nat.mod_eq_of_lt hl']

end Read

section Write

variable (hp : p.bus < 256 ∧ p.slot < 32 ∧ p.func < 8) (hf : field < 256) (hd : size.bytes ∣ field)

include hf hd in
theorem toNat_readField_writeField {device : BitVec 32} :
    ((s.writeField device (.ofNat 32 field) size value).readField size device (.ofNat 32 field)).fst.toNat =
      value.toNat / 256 ^ (field % 4) % 256 ^ size.bytes := by
  rw [toNat_readField hf hd, storage_writeField, Bytes.load_store_of_le (mod_add_bytes_le hd)]

include hp hf in
-- All four bytes of the double word are written, and nothing else.
theorem byte_writeField (hq : q.bus < 256 ∧ q.slot < 32 ∧ q.func < 8) (hk : k < 256) :
    (s.writeField p.device (.ofNat 32 field) size value).byte q k =
      if q = p ∧ k / 4 = field / 4 then .ofNat 8 (value.toNat / 256 ^ (k % 4)) else s.byte q k := by
  rw [byte_eq hq hk, byte_eq hq hk, storage_writeField, toNat_addressAt_ofNat hp hf, Bytes.store]
  by_cases h : q = p ∧ k / 4 = field / 4
  case pos =>
    have hm : q.base + k - (p.base + 4 * (field / 4)) = k % 4 := by
      rw [h.left]
      omega
    rw [if_pos h, if_pos (by rw [h.left]; omega), hm]
  case neg =>
    refine (if_neg fun hb => h ?_).trans (if_neg h).symm
    obtain ⟨j, hj⟩ := Nat.exists_eq_add_of_le hb.left
    obtain ⟨hqp, hkj⟩ := base_inj hq hp hk (k := 4 * (field / 4) + j) (by omega) (by omega)
    exact ⟨hqp, by omega⟩

variable (hv : value.toNat < 256 ^ size.bytes)

omit hp hf hd in
include hv in
theorem div_eq_zero {n : Nat} (h : size.bytes ≤ n) : value.toNat / 256 ^ n = 0 :=
  Nat.div_eq_of_lt <| Nat.lt_of_lt_of_le hv (Nat.pow_le_pow_right (by decide) h)

include hf hd hv in
-- The value is found in the first bytes of the double word.
theorem readField_writeField_iff {device : BitVec 32} :
    ((s.writeField device (.ofNat 32 field) size value).readField size device (.ofNat 32 field)).fst = value ↔
      4 ∣ field ∨ value = 0 := by
  rw [← BitVec.toNat_inj, toNat_readField_writeField hf hd]
  by_cases h : 4 ∣ field
  case pos => simp [Nat.mod_eq_zero_of_dvd h, Nat.mod_eq_of_lt hv, h]
  case neg =>
    have hle : size.bytes ≤ field % 4 := by
      cases size <;> simp only [Size.bytes] at hd ⊢ <;> omega
    rw [div_eq_zero hv hle, Nat.zero_mod, or_iff_right h, ← BitVec.toNat_inj, eq_comm]
    rfl

omit hp hf hd in
include hv in
-- The other bytes are set to zero then.
theorem other_eq_zero (h : 4 ∣ field ∨ value = 0) (hk : k / 4 = field / 4)
    (hn : ¬(field ≤ k ∧ k < field + size.bytes)) : BitVec.ofNat 8 (value.toNat / 256 ^ (k % 4)) = 0 := by
  have h0 : value.toNat / 256 ^ (k % 4) = 0 := by
    cases h
    case inl h => exact div_eq_zero hv (by omega)
    case inr h => rw [h]; exact Nat.zero_div _
  rw [h0]
  rfl

-- A register can be written and read if and only if it begins a double word or is set to zero, and the rest of the
-- double word is zero.
include hp hf hd in
theorem lawful_iff (hv : value.toNat < 2 ^ (8 * size.bytes)) :
    s.Lawful p field size value ↔ (4 ∣ field ∨ value = 0) ∧ s.Isolated p field size := by
  have hv : value.toNat < 256 ^ size.bytes := by rwa [Nat.pow_mul] at hv
  have hb {q : Position} {k : Nat} (hq : q.bus < 256 ∧ q.slot < 32 ∧ q.func < 8) (hk : k < 256) :
      (s.writeField p.device (.ofNat 32 field) size value).byte q k = _ := byte_writeField hp hf hq hk
  constructor
  case mp =>
    intro h
    have hread := readField_writeField_iff hf hd hv |>.mp h.read
    refine ⟨hread, fun k hk hkf hn => ?_⟩
    have hframe := h.frame p hp k hk fun hc => hn hc.right
    rw [hb hp hk, if_pos ⟨rfl, hkf⟩, other_eq_zero hv hread hkf hn] at hframe
    exact hframe.symm
  case mpr =>
    intro ⟨hread, hother⟩
    refine ⟨readField_writeField_iff hf hd hv |>.mpr hread, fun q hq k hk hn => ?_⟩
    rw [hb hq hk]
    split
    case isFalse => rfl
    case isTrue hc =>
      have ⟨hqp, hkf⟩ := hc
      subst hqp
      have hn : ¬(field ≤ k ∧ k < field + size.bytes) := fun h => hn ⟨rfl, h⟩
      rw [other_eq_zero hv hread hkf hn, hother k hk hkf hn]

end Write

-- Storage that is filled with zeros.
def blank : Ports where
  address := 0
  storage := fun _ => 0

theorem lawful_dword : Lawful blank ⟨0, 3, 0⟩ 0x10 .four 0xFEBF0000 :=
  lawful_iff (by decide) (by decide) (by decide) (by decide) |>.mpr
    ⟨by decide, fun k _ hk hn => absurd hn (by simp only [Size.bytes]; omega)⟩

-- Writing to `InterruptLine` clears `InterruptPin`, which is the next byte.
theorem not_lawful_byte : ¬Lawful ⟨0, fun k => if k % 256 = 0x3D then 1 else 0⟩ ⟨0, 3, 0⟩ 0x3C .one 11 := by
  intro h
  have hframe := h.frame ⟨0, 3, 0⟩ (by decide) 0x3D (by decide) (by decide)
  revert hframe
  decide

end Ports
end PCI
