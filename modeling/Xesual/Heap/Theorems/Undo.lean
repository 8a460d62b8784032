import Xesual.Heap.Blocks
import Xesual.Heap.Theorems.Free
import Xesual.Heap.Theorems.Requests

namespace Alloc

open Linked Memory

namespace State

variable {s s₁ s₂ : State} {b c n p q size : BitVec 64} {pre post : List (BitVec 64)} {fuel : Nat}

theorem locked_covered : s.locked.covered = s.covered := rfl
theorem release_covered : s.release.covered = s.covered := rfl

-- Freeing a block behind some chunk adds the bytes of the block to the free list.
theorem FreeList.free_covered {e : Nat} (fl : s.FreeList q (pre ++ post)) (hl : s.Unlocked)
    (hb : s.Between b e pre post) (hn : (s.blockSize (b + 8)).toNat ≤ e) (hp : pre ≠ []) (hb0 : b ≠ 0) :
    ∃ fuel s', free fuel s (b + 8) = some s' ∧ s'.covered = s.covered ∪ region b (s.blockSize (b + 8)).toNat := by
  have hf : s.freeList ≠ 0 := fl.ne_null <| List.mem_append_left _ <| fl.list.head_mem_of_append hp
  refine ⟨_, _, fl.free_eq hl hb hn hf (Nat.lt_succ_self _), ?_⟩
  have hm : b + 8 - 8 = b := BitVec.add_sub_cancel b 8
  have hc : s.cleared (b + 8) = s.clear b (s.blockSize (b + 8)) := by
    rw [cleared, sizeofUnfreeChunk, hm]
  rw [release_covered, hc, covered_link (fl.clear hb hn).locked (hb.clear fl hn).locked hn hb0 ?_ hp, locked_covered,
    fl.covered_clear hb hn]
  rw [locked_numBytes, clear_numBytes]

-- The bytes that have been taken from a chunk, and the ones that are left.
theorem FreeList.covered_take {a : BitVec 64} (fl : s.FreeList q (pre ++ c :: post)) (hq : Outside q (pre ++ c :: post))
    (ha : a < s.numBytes c) : s.covered = (s.take c a).covered ∪ region (c + (s.numBytes c - a)) a.toNat := by
  have hle : a ≤ s.numBytes c := BitVec.le_of_lt ha
  have fl' := fl.take hq hle
  rw [remainder, if_pos ha] at fl'
  have hbytes : s.bytes c = (s.take c a).bytes c ∪ region (c + (s.numBytes c - a)) a.toNat := by
    have hsum : s.numBytes c - a + a = s.numBytes c := BitVec.sub_add_cancel ..
    rw [bytes, bytes, fl.take_numBytes_self hq hle, ← region_add, hsum]
    bv_omega
  have hother (d : BitVec 64) (hd : d ∈ pre ++ post) : (s.take c a).bytes d = s.bytes d := by
    rw [bytes, bytes, fl.take_numBytes hq hle hd]
  have hmem (d : BitVec 64) : d ∈ pre ++ [c] ++ post ↔ d ∈ pre ++ c :: post := by
    rw [List.append_assoc, List.singleton_append]
  ext k
  rw [Set.mem_union, fl.covered_iff, fl'.covered_iff]
  simp only [hmem]
  generalize s.take c a = s' at *
  constructor
  case mp =>
    rintro ⟨d, hd, hk⟩
    by_cases hdc : d = c
    case pos =>
      rw [hdc, hbytes] at hk
      exact hk.imp_left fun hk => ⟨c, by simp, hk⟩
    case neg => exact .inl ⟨d, hd, by rwa [hother d (by simpa [hdc] using hd)]⟩
  case mpr =>
    intro hk
    cases hk
    case inr hk => exact ⟨c, by simp, by rw [hbytes]; exact .inr hk⟩
    case inl hk =>
      obtain ⟨d, hd, hk⟩ := hk
      by_cases hdc : d = c
      case pos => exact ⟨c, by simp, by rw [hbytes, ← hdc]; exact .inl hk⟩
      case neg => exact ⟨d, hd, by rwa [← hother d (by simpa [hdc] using hd)]⟩

theorem Between.of_numBytes {e : Nat} {s' : State} (h : s.Between b e pre post)
    (hn : ∀ c ∈ pre, s'.numBytes c = s.numBytes c) : s'.Between b e pre post where
  below   := fun c hc => by rw [extent, hn c hc]; exact h.below c hc
  above   := h.above
  large   := h.large
  bounded := h.bounded

-- The chunk behind `c` is the lowest one of those behind `c`.
theorem FreeList.next_le {d : BitVec 64} (fl : s.FreeList q (pre ++ c :: post)) (hd : d ∈ post) :
    s.next c ≠ 0 ∧ (s.next c).toNat ≤ d.toNat := by
  have hs := List.pairwise_append.mp fl.sorted |>.right.left
  have hs := List.pairwise_cons.mp hs |>.right
  cases post
  case nil => cases hd
  case cons x post =>
    have ⟨hx, h0, _⟩ := DoubleChain.cons_iff.mp fl.next_eq
    rw [hx]
    refine ⟨h0, ?_⟩
    cases hd
    case head    => exact Nat.le_refl _
    case tail hd => exact Nat.le_of_lt <| (List.pairwise_cons.mp hs).left d hd

theorem written_refl : s.Written s p size :=
  ⟨.refl, rfl, rfl⟩

-- The block is cut off a chunk that keeps enough bytes.
section Roomy

variable (fl : s.FreeList 0 (pre ++ c :: post)) (hr : s.Roomy c size)

include hr

theorem Roomy.lt : size + 8 < s.numBytes c := by
  have := hr.remainder
  bv_omega

theorem Roomy.toNat_size : (size + 8).toNat = size.toNat + 8 := by
  have := hr.remainder
  bv_omega

include fl

theorem Roomy.toNat_cut : (s.cut c size).toNat = c.toNat + ((s.numBytes c).toNat - (size.toNat + 8)) := by
  have := hr.remainder
  have := fl.finish_le (c := c) (by simp)
  unfold finish at this
  unfold cut
  bv_omega

-- The header of the free block does not overlap with the other chunks.
theorem Roomy.between : (s.locked.take c (size + 8)).release.Between (s.cut c size) (max 24 (size.toNat + 8))
    (pre ++ [c]) post := by
  have hcut := hr.toNat_cut fl
  have hrem := hr.remainder
  have hle : size + 8 ≤ s.numBytes c := BitVec.le_of_lt hr.lt
  have hself := fl.locked.take_numBytes_self outside_zero hle
  have hother {d : BitVec 64} (hd : d ∈ pre ++ post) := fl.locked.take_numBytes outside_zero hle hd
  have hord := List.pairwise_append.mp fl.ordered
  have hpost := List.pairwise_cons.mp hord.right.left |>.left
  generalize s.locked.take c (size + 8) = s' at *
  constructor
  case large => omega
  case bounded =>
    have := hr.bounded
    have := fl.finish_le (c := c) (by simp)
    unfold finish at this
    omega
  case below =>
    intro d hd
    cases List.mem_append.mp hd
    case inl hd =>
      have hn : s'.release.extent d = s.extent d := by
        rw [extent, extent]
        exact congrArg (fun n : BitVec 64 => max sizeofFreeChunk n.toNat) (hother (List.mem_append_left _ hd))
      have := hord.right.right d hd c (by simp)
      omega
    case inr hd =>
      rw [List.mem_singleton.mp hd]
      have hn : s'.release.numBytes c = s.numBytes c - (size + 8) := hself
      have hlt := hr.lt
      rw [extent, hn, hcut, sizeofFreeChunk]
      bv_omega
  case above =>
    intro d hd
    have := hpost d hd
    have := s.numBytes_le_extent (c := c)
    have hnext := fl.next_le hd
    have := hr.next hnext.left
    omega

-- Taking the block does not affect the bytes in front of it.
theorem Roomy.load_cut :
    (s.locked.take c (size + 8)).release.memory.load (s.cut c size) = s.memory.load (s.cut c size) := by
  have hcut := hr.toNat_cut fl
  have hrem := hr.remainder
  have hb := hr.bounded
  have h := take_cases (s := s.locked) (a := size + 8) (c := c) (BitVec.le_of_lt hr.lt)
  have h := h.resolve_right fun h => absurd h.left (BitVec.ne_of_lt hr.lt)
  rw [h.right, release_memory]
  refine load_store_of_disjoint <| disjoint_region_of_le ?_ (by omega)
  rw [hcut]
  bv_omega

-- If the size is found in front of the block then freeing the block undoes its allocation.
theorem Roomy.undoes (h : s.memory.load (s.cut c size) = size + 8) :
    s.Undoes size (s.locked.take c (size + 8)).release (s.cut c size + 8) := by
  intro s₂ hw
  have hcut := hr.toNat_cut fl
  have hrem := hr.remainder
  have hb := hr.between fl
  have hload := hr.load_cut fl
  have hle : size + 8 ≤ s.numBytes c := BitVec.le_of_lt hr.lt
  have fl₁ := (fl.locked.take outside_zero hle).release
  have hcov := fl.locked.covered_take outside_zero hr.lt
  rw [State.remainder, locked_numBytes, if_pos hr.lt] at fl₁
  rw [locked_covered, locked_numBytes] at hcov
  generalize ht : s.locked.take c (size + 8) = s₁ at *
  -- The caller only writes to bytes that do not belong to a chunk.
  have hsub : region (s.cut c size + 8) size.toNat ⊆ region (s.cut c size) (max 24 (size.toNat + 8)) := by
    apply region_subset
    bv_omega
  have hdis (d : BitVec 64) (hd : d ∈ pre ++ [c] ++ post) :
      Disjoint (header d) (region (s.cut c size + 8) size.toNat) :=
    (hb.disjoint fl₁ hd).symm.mono header_subset hsub
  have fl₂ := fl₁.of_changes hw.memory hdis hw.freeList
  have hb₂ : s₂.Between (s.cut c size) (max 24 (size.toNat + 8)) (pre ++ [c]) post :=
    hb.of_numBytes fun d hd => numBytes_of_changes hw.memory (hdis d (List.mem_append_left _ hd))
  have hsize : s₂.blockSize (s.cut c size + 8) = size + 8 := by
    have hm : s.cut c size + 8 - sizeofUnfreeChunk = s.cut c size := BitVec.add_sub_cancel ..
    have hd : Disjoint (region (s.cut c size) 8) (region (s.cut c size + 8) size.toNat) := by
      apply disjoint_region <;> bv_omega
    rw [blockSize, hm, hw.memory.load hd, hload, h]
  have hl₂ : s₂.Unlocked := by
    rw [Unlocked, hw.lock]
    exact unlocked_release
  have hn : (s₂.blockSize (s.cut c size + 8)).toNat = size.toNat + 8 := by rw [hsize, hr.toNat_size]
  refine ⟨hn, ?_⟩
  have hcut0 : s.cut c size ≠ 0 := by bv_omega
  obtain ⟨fuel, s₃, hfree, hs₃⟩ := fl₂.free_covered hl₂ hb₂ (by omega) (by simp) hcut0
  refine ⟨fuel, s₃, hfree, ?_⟩
  rw [hs₃, hsize, fl₁.covered_of_changes hw.memory hdis hw.freeList, release_covered, hcov, cut]

-- Nothing is written to the bytes in front of the block, not even its size.
theorem Roomy.recorded (h : s.Undoes size (s.locked.take c (size + 8)).release (s.cut c size + 8)) :
    s.memory.load (s.cut c size) = size + 8 := by
  have hs := (h _ written_refl).left
  have hm : s.cut c size + 8 - sizeofUnfreeChunk = s.cut c size := BitVec.add_sub_cancel ..
  have hsize := hr.toNat_size
  rw [blockSize, hm, hr.load_cut fl] at hs
  bv_omega

end Roomy

-- A chunk that is used up keeps its `next` field, which is not the size of a block.
theorem FreeList.next_ne_numBytes (fl : s.FreeList q (pre ++ c :: post)) (h : 0 < (s.numBytes c).toNat) :
    s.next c ≠ s.numBytes c := by
  intro he
  have h0 := fl.ne_null (c := c) (by simp)
  have hn : s.next c ≠ 0 := by bv_omega
  have ho := List.pairwise_append.mp fl.ordered |>.right.left
  have ho := List.pairwise_cons.mp ho |>.left (s.next c) (fl.next_eq.head_mem hn)
  have := s.numBytes_le_extent (c := c)
  bv_omega

theorem FreeList.take_next (fl : s.FreeList q (pre ++ c :: post)) (hq : Outside q (pre ++ c :: post)) {a : BitVec 64}
    (ha : a = s.numBytes c) : (s.take c a).next c = s.next c := by
  have h := (take_cases (BitVec.le_of_eq ha)).resolve_left fun h => absurd ha (BitVec.ne_of_lt h.left)
  have fl' := fl.setNumBytes_zero
  rw [h.right, next_of_changes (fl'.changes_unlink hq) (fl'.disjoint_links hq), setNumBytes_next]

-- A block that uses up its chunk cannot be freed again.
theorem FreeList.lt_of_undoes (fl : s.FreeList 0 (pre ++ c :: post)) (ha : size + 8 ≤ s.numBytes c)
    (h : s.Undoes size (s.locked.take c (size + 8)).release (c + (s.numBytes c - (size + 8)) + 8)) :
    size.toNat + 8 < (s.numBytes c).toNat := by
  have hs := (h _ written_refl).left
  have hlt := ((s.locked.take c (size + 8)).release.blockSize (c + (s.numBytes c - (size + 8)) + 8)).isLt
  refine Nat.lt_of_le_of_ne (by bv_omega) fun he => ?_
  have he : size + 8 = s.numBytes c := by bv_omega
  have hc : c + (s.numBytes c - (size + 8)) + 8 - sizeofUnfreeChunk = c := by
    rw [he, sizeofUnfreeChunk]
    bv_omega
  rw [blockSize, hc, release_memory] at hs
  have hn : (s.locked.take c (size + 8)).memory.load c = s.next c := fl.locked.take_next outside_zero he
  rw [hn] at hs
  exact fl.next_ne_numBytes (by bv_omega) (by bv_omega)

-- If a header fits in front of the block, then freeing the block undoes its allocation if and only if its size has
-- been there already. In any case, some bytes of the chunk have to be left.
theorem undoes_iff_recorded (wf : s.WellFormed) (h : allocate fuel s size = some (s₁, p)) (hp : p ≠ 0) :
    (∀ c, s.FirstFit (size.toNat + 8) c → s.Roomy c size →
      (s.Undoes size s₁ p ↔ s.memory.load (s.cut c size) = size + 8)) ∧
    (s.Undoes size s₁ p → ∃ c, s.FirstFit (size.toNat + 8) c ∧ size.toNat + 8 < (s.numBytes c).toNat) := by
  have ⟨_, fl⟩ := wf
  have hc := (fl.allocate_cases outside_zero h).resolve_left fun h => hp h.left
  have ⟨pre, c, post, hcs, hpre, hle, hs, hp⟩ := hc
  subst hcs hs hp
  refine ⟨fun d hf hr => ?_, fun hu => ?_⟩
  case refine_1 =>
    have hsize := hr.toNat_size
    have hd : d = c := by
      refine fl.eq_of_firstFit (fun d hd => ?_) (by bv_omega) hf
      have := hpre d hd
      bv_omega
    subst hd
    exact ⟨hr.recorded fl, hr.undoes fl⟩
  case refine_2 =>
    have hlt := fl.lt_of_undoes hle hu
    refine ⟨c, ⟨pre, post, fl.chain, fun d hd => ?_, Nat.le_of_lt hlt⟩, hlt⟩
    have := hpre d hd
    bv_omega

-- The free list of a single chunk, where a word of the chunk has the value `v`.
def singleWith (c n a v : BitVec 64) : State :=
  { single c n with memory := (single c n).memory.store a v }

section SingleWith

variable {a v : BitVec 64} (h : c ≠ 0) (hb : c.toNat + max 24 n.toNat ≤ 2 ^ 64)
variable (hd : Disjoint (header c) (region a 8))

include hd in
theorem singleWith_numBytes : (singleWith c n a v).numBytes c = n :=
  (numBytes_of_changes (s := single c n) Changes.store hd).trans single_numBytes

include h hb hd

theorem singleWith_freeList : (singleWith c n a v).FreeList 0 [c] :=
  (single_freeList h hb).of_changes Changes.store (by simpa using hd) rfl

-- The block at the end of the chunk.
theorem singleWith_allocate (hs : size + 8 ≤ n) :
    allocate 2 (singleWith c n a v) size =
      some (((singleWith c n a v).locked.take c (size + 8)).release, c + (n - (size + 8)) + 8) := by
  have fl := singleWith_freeList (v := v) h hb hd
  have hr : (allocate 2 (singleWith c n a v) size).isSome := fl.allocate_isSome rfl (by simp)
  have ⟨⟨s', p⟩, hr⟩ := Option.isSome_iff_exists.mp hr
  cases fl.allocate_cases outside_zero hr
  case inl hn =>
    have hn := hn.right.right c (by simp)
    rw [singleWith_numBytes hd] at hn
    exact absurd hs (BitVec.not_le.mpr hn)
  case inr hc =>
    have ⟨pre, d, post, hcs, _, _, hs', he⟩ := hc
    have hm : d ∈ [c] := by rw [hcs]; simp
    rw [List.mem_singleton.mp hm] at hs' he
    rw [singleWith_numBytes hd] at he
    rw [hr, he, hs']

end SingleWith

theorem singleWith_roomy {a v : BitVec 64} (hd : Disjoint (header 64) (region a 8)) :
    (singleWith 64 64 a v).Roomy 64 16 := by
  have fl : (singleWith 64 64 a v).FreeList 0 ([] ++ 64 :: []) := singleWith_freeList (by decide) (by decide) hd
  have hn : (singleWith 64 64 a v).numBytes 64 = 64 := singleWith_numBytes hd
  have h0 : (singleWith 64 64 a v).next 64 = 0 := DoubleChain.nil_iff.mp fl.next_eq
  constructor
  case remainder => rw [hn]; decide
  case next      => exact fun h => absurd h0 h
  case bounded   => rw [cut, hn]; decide

theorem disjoint_header_104 : Disjoint (header 64) (region 104 8) :=
  disjoint_region (by decide) (by decide)

theorem singleWith_cut {a v : BitVec 64} (hd : Disjoint (header 64) (region a 8)) :
    (singleWith 64 64 a v).cut 64 16 = 104 := by
  have hn : (singleWith 64 64 a v).numBytes 64 = 64 := singleWith_numBytes hd
  rw [cut, hn]
  decide

-- The size of the block happens to be found at its place.
theorem singleWith_undoes : ∃ s', allocate 2 (singleWith 64 64 104 24) 16 = some (s', 112) ∧
    (singleWith 64 64 104 24).Undoes 16 s' 112 := by
  have hd := disjoint_header_104
  have fl : (singleWith 64 64 104 24).FreeList 0 [64] := singleWith_freeList (by decide) (by decide) hd
  have hn : (singleWith 64 64 104 24).numBytes 64 = 64 := singleWith_numBytes hd
  have h : allocate 2 (singleWith 64 64 104 24) 16 = some (_, 112) :=
    singleWith_allocate (by decide) (by decide) hd (by decide)
  have hu := undoes_iff_recorded ⟨_, fl⟩ h (by decide) |>.left 64 ⟨[], [], fl.chain, by simp, by rw [hn]; decide⟩
  refine ⟨_, h, hu (singleWith_roomy hd) |>.mpr ?_⟩
  rw [singleWith_cut hd]
  exact load_store

-- Otherwise, another size is found.
theorem singleWith_not_undoes : (singleWith 64 64 104 0).WellFormed ∧ (singleWith 64 64 104 0).Unlocked ∧
    ∃ s', allocate 2 (singleWith 64 64 104 0) 16 = some (s', 112) ∧ ¬(singleWith 64 64 104 0).Undoes 16 s' 112 := by
  have hd := disjoint_header_104
  have fl : (singleWith 64 64 104 0).FreeList 0 [64] := singleWith_freeList (by decide) (by decide) hd
  have h : allocate 2 (singleWith 64 64 104 0) 16 = some (_, 112) :=
    singleWith_allocate (by decide) (by decide) hd (by decide)
  have hl : (single 64 64).Unlocked := single_unlocked
  refine ⟨⟨_, fl⟩, hl, _, h, fun hu => ?_⟩
  have hl : (singleWith 64 64 104 0).memory.load ((singleWith 64 64 104 0).cut 64 16) = 0 := by
    rw [singleWith_cut hd]
    exact load_store
  have fl : (singleWith 64 64 104 0).FreeList 0 ([] ++ 64 :: []) := fl
  have hr := (singleWith_roomy hd).recorded fl (by rw [singleWith_cut hd]; exact hu)
  rw [hl] at hr
  exact absurd hr (by decide)

end State
end Alloc
