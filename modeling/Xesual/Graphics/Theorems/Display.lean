import Xesual.Graphics.Display

namespace Graphics.Machine

open Memory

variable {σ : Machine} {dev : BitVec 32} {pix a : BitVec 64} {xres yres : BitVec 16} {x y n k : Nat}

section Loops

-- Two nested loops run through the numbers below a product.
theorem range_mul : (List.range y).flatMap (fun j => (List.range x).map fun i => i + j * x) = List.range (x * y) := by
  induction y
  case zero => simp
  case succ y ih =>
    rw [List.range_succ, List.flatMap_append, ih, List.flatMap_singleton, Nat.mul_succ, List.range_add]
    congr 1
    refine List.map_congr_left fun i _ => ?_
    rw [Nat.mul_comm y x, Nat.add_comm]

-- The index of a pixel does not exceed an `int`.
theorem pixel_eq (hx : x < xres.toNat) (hy : y < yres.toNat) (h : xres.toNat * yres.toNat < 2 ^ 31) :
    pixel pix xres x y = pix + 4 * .ofNat 64 (x + y * xres.toNat) := by
  have hlt : x + y * xres.toNat < xres.toNat * yres.toNat := by
    calc x + y * xres.toNat
      _ < xres.toNat + y * xres.toNat   := Nat.add_lt_add_right hx _
      _ = (y + 1) * xres.toNat          := by rw [Nat.succ_mul, Nat.add_comm]
      _ ≤ yres.toNat * xres.toNat       := Nat.mul_le_mul_right _ hy
      _ = xres.toNat * yres.toNat       := Nat.mul_comm ..
  have hidx : BitVec.ofNat 32 x + BitVec.ofNat 32 y * xres.setWidth 32 = .ofNat 32 (x + y * xres.toNat) := by
    have hr : xres.setWidth 32 = .ofNat 32 xres.toNat := by
      apply BitVec.eq_of_toNat_eq
      rw [BitVec.toNat_setWidth, BitVec.toNat_ofNat]
    rw [hr, ← BitVec.ofNat_mul, ← BitVec.ofNat_add]
  rw [pixel, hidx]
  generalize x + y * xres.toNat = k at *
  congr 2
  apply BitVec.eq_of_toNat_eq
  have hm : (BitVec.ofNat 32 k).msb = false := by
    rw [BitVec.msb_eq_false_iff_two_mul_lt, BitVec.toNat_ofNat]
    omega
  rw [BitVec.signExtend_eq_setWidth_of_msb_false hm, BitVec.toNat_setWidth, BitVec.toNat_ofNat, BitVec.toNat_ofNat]
  omega

theorem pixels_eq (h : xres.toNat * yres.toNat < 2 ^ 31) :
    pixels pix xres yres = (List.range (xres.toNat * yres.toNat)).map fun k => pix + 4 * .ofNat 64 k := by
  rw [← range_mul, List.map_flatMap, pixels]
  refine List.flatMap_congr fun y hy => ?_
  rw [List.map_map]
  exact List.map_congr_left fun x hx => pixel_eq (List.mem_range.mp hx) (List.mem_range.mp hy) h

end Loops

section Bar

theorem base_and_flags : σ.base dev &&& σ.flags dev = 0 := by
  have h : (0xFFFFFFF0 : BitVec 32) &&& 0xF = 0 := by decide
  rw [base, flags, BitVec.and_comm _ 0xF, ← BitVec.and_assoc, BitVec.and_assoc _ 0xFFFFFFF0, h]
  simp

theorem bar_eq : σ.config.read ⟨.four, dev, .Bar0⟩ = σ.base dev + σ.flags dev := by
  have h : (0xFFFFFFF0 : BitVec 32) ||| 0xF = BitVec.allOnes 32 := by decide
  rw [BitVec.add_eq_or_of_and_eq_zero _ _ base_and_flags, base, flags, ← BitVec.and_or_distrib_left, h,
    BitVec.and_allOnes]

theorem flags_lt : (σ.flags dev).toNat < 16 := by
  rw [flags, BitVec.toNat_and]
  exact Nat.and_lt_two_pow (n := 4) _ (by decide)

-- The flags are added to the address of the framebuffer.
theorem framebufferAddress_eq : σ.framebufferAddress dev =
    σ.physicalToVirtual ((σ.base dev).setWidth 64) + (σ.flags dev).setWidth 64 := by
  have h : (σ.base dev + σ.flags dev).toNat = (σ.base dev).toNat + (σ.flags dev).toNat :=
    BitVec.toNat_add_of_and_eq_zero base_and_flags
  rw [framebufferAddress, bar_eq, physicalToVirtual, physicalToVirtual]
  bv_omega

end Bar

section Covers

variable (h : σ.numPixels dev < 2 ^ 31)

include h

theorem written_eq : σ.written dev = (List.range (σ.numPixels dev)).map fun k =>
    σ.physicalToVirtual ((σ.base dev).setWidth 64) + (σ.flags dev).setWidth 64 + 4 * .ofNat 64 k := by
  rw [written, pixels_eq h, framebufferAddress_eq, numPixels]

-- The first pixel of the framebuffer is only written if there are no flags.
theorem flags_eq_zero (h0 : σ.numPixels dev ≠ 0) (hc : σ.Covers dev) : σ.flags dev = 0 := by
  have hf : (σ.flags dev).toNat < 16 := flags_lt
  rw [Covers, written_eq h, framebuffer] at hc
  generalize σ.physicalToVirtual ((σ.base dev).setWidth 64) = b at hc
  have hm : b ∈ (List.range (σ.numPixels dev)).map fun k => b + 4 * .ofNat 64 k :=
    List.mem_map.mpr ⟨0, List.mem_range.mpr (Nat.pos_of_ne_zero h0), by simp⟩
  have ⟨k, hk, he⟩ := List.mem_map.mp <| hc.mem_iff.mpr hm
  have hk := List.mem_range.mp hk
  apply BitVec.eq_of_toNat_eq
  bv_omega

-- The framebuffer is covered if and only if there are no flags, or there are no pixels.
theorem covers_iff : σ.Covers dev ↔ σ.flags dev = 0 ∨ σ.numPixels dev = 0 := by
  constructor
  case mp  => exact fun hc => or_iff_not_imp_right.mpr fun h0 => flags_eq_zero h h0 hc
  case mpr =>
    intro h0
    rw [Covers, written_eq h, framebuffer]
    cases h0
    case inl h0 => simp [h0]
    case inr h0 => simp [h0]

end Covers

-- What the callback does to memory.
section Fill

variable {memory : Memory} {addresses : List (BitVec 64)}

theorem changes_fill : memory.Changes (fill memory addresses) { k | ∃ a ∈ addresses, k ∈ region a 4 } := by
  induction addresses generalizing memory
  case nil => exact .refl
  case cons a addresses ih =>
    refine .trans (Changes.store32.mono fun k hk => ⟨a, by simp, hk⟩) (ih.mono fun k hk => ?_)
    have ⟨b, hb, hk⟩ := hk
    exact ⟨b, by simp [hb], hk⟩

theorem load32_fill (h : addresses.Pairwise fun a b => Disjoint (region a 4) (region b 4)) (ha : a ∈ addresses) :
    (fill memory addresses).load32 a = 0x3DAEE9 := by
  induction addresses generalizing memory
  case nil => cases ha
  case cons b addresses ih =>
    have ⟨hb, h⟩ := List.pairwise_cons.mp h
    cases List.mem_cons.mp ha
    case inr ha => exact ih h ha
    case inl ha =>
      subst ha
      have hd : Disjoint (region a 4) { k | ∃ b ∈ addresses, k ∈ region b 4 } := by
        refine Set.disjoint_left.mpr fun k hk ⟨b, hm, hk'⟩ => ?_
        exact Set.disjoint_left.mp (hb b hm) hk hk'
      have hl : (fill (memory.store32 a 0x3DAEE9) addresses).load32 a = (memory.store32 a 0x3DAEE9).load32 a :=
        changes_fill.load32 hd
      exact hl.trans load32_store32

end Fill

-- If there are no flags then the framebuffer has the colour, and nothing else has changed.
theorem callback_display {hit : PCI.Hit} (hd : hit.vendorID = 0x1234 ∧ hit.deviceID = 0x1111)
    (h : σ.numPixels hit.device < 2 ^ 31) (hf : σ.flags hit.device = 0) :
    (∀ a ∈ σ.framebuffer hit.device, (σ.callback hit).memory.load32 a = 0x3DAEE9) ∧
    σ.memory.Changes (σ.callback hit).memory { k | ∃ a ∈ σ.framebuffer hit.device, k ∈ region a 4 } := by
  have hw : σ.written hit.device = σ.framebuffer hit.device := by
    rw [written_eq h, framebuffer, hf]
    simp
  have hdis : (σ.framebuffer hit.device).Pairwise fun a b => Disjoint (region a 4) (region b 4) := by
    refine List.pairwise_map.mpr <| List.pairwise_lt_range.imp_of_mem fun {j k} hj hk hjk => ?_
    have hj := List.mem_range.mp hj
    have hk := List.mem_range.mp hk
    apply disjoint_region_add <;> bv_omega
  rw [callback, if_pos hd, hw]
  exact ⟨fun a ha => load32_fill hdis ha, changes_fill⟩

-- The display at 0:2.0 has 640 x 480 pixels, and its framebuffer at 0xFD000000 is prefetchable or not.
def display (prefetchable : Bool) : Machine where
  HigherHalfDirectMapOffset := 0xFFFF800000000000
  memory := Memory.zero.storeBytes 0xFFFF8000FEBF0502 4 (640 + 480 * 2 ^ 16)
  config
    | 0x80001000 => 0x11111234
    | 0x80001010 => if prefetchable then 0xFD000008 else 0xFD000000
    | 0x80001018 => 0xFEBF0000
    | _          => 0xFFFFFFFF

theorem numPixels_display : ∀ prefetchable, (display prefetchable).numPixels 0x200 = 640 * 480 := by
  decide +kernel

-- The last pixel.
theorem callback_display_last :
    ((display false).callback ⟨0x200, 0x1234, 0x1111⟩).memory.load32 0xFFFF8000FD12BFFC = 0x3DAEE9 := by
  have hn := numPixels_display false
  refine (callback_display ⟨rfl, rfl⟩ (by rw [hn]; decide) (by decide +kernel)).left _ ?_
  exact List.mem_map.mpr ⟨307199, List.mem_range.mpr (by rw [hn]; decide), by decide +kernel⟩

theorem covers_display : (display false).Covers 0x200 := by
  have hn := numPixels_display false
  exact covers_iff (by rw [hn]; decide) |>.mpr (.inl <| by decide +kernel)

-- The addresses of the pixels are shifted by the flag.
theorem not_covers_display : (display true).numPixels 0x200 < 2 ^ 31 ∧ ¬(display true).Covers 0x200 := by
  have hn := numPixels_display true
  have h : (display true).numPixels 0x200 < 2 ^ 31 := by rw [hn]; decide
  refine ⟨h, fun hc => ?_⟩
  have hf := flags_eq_zero h (by rw [hn]; decide) hc
  exact absurd hf (by decide +kernel)

end Graphics.Machine
