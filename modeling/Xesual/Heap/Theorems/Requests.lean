import Xesual.Heap.Theorems.Allocate

namespace Alloc

open Linked Memory

namespace State

variable {s s' : State} {a c d n p q size : BitVec 64} {cs pre post : List (BitVec 64)} {k : Nat}

theorem take_zero (h : s.numBytes c ≠ 0) : s.take c 0 = s := by
  have h0 : s.setNumBytes c (s.numBytes c) = s := by
    simp only [setNumBytes, numBytes, store_load]
  have hn : s.numBytes c - 0 = s.numBytes c := BitVec.sub_zero _
  simp only [take, hn, h0, h, ↓reduceIte]

namespace FreeList

-- A request that does not wrap around is served by the chunk that has been found.
theorem serves_of_le (fl : s.FreeList q (pre ++ c :: post)) (hq : Outside q (pre ++ c :: post))
    (hs : size.toNat + 8 < 2 ^ 64) (ha : size + 8 ≤ s.numBytes c) (hp : p ≠ 0)
    (h : p = c + (s.numBytes c - (size + 8)) + 8) : s.Serves size (s.locked.take c (size + 8)).release p := by
  have hsize : (size + 8).toNat = size.toNat + 8 := by bv_omega
  have hle : size.toNat + 8 ≤ (s.numBytes c).toNat := by bv_omega
  rw [Serves, if_neg hp]
  refine ⟨pre.map s.chunk, c, (s.numBytes c).toNat, post.map s.chunk, ⟨_, fl.chain, ?_⟩, hle, ?_, ?_⟩
  case refine_1 => rw [List.map_append, List.map_cons, chunk]
  case refine_2 =>
    apply region_subset
    bv_omega
  case refine_3 =>
    have hc := fl.locked.chunks_take hq ha
    rw [hsize, locked_chunk, locked_numBytes] at hc
    exact hc.release

theorem finish_le (fl : s.FreeList q cs) (hc : c ∈ cs) : s.finish c ≤ 2 ^ 64 :=
  Nat.le_trans (Nat.add_le_add_left numBytes_le_extent _) (fl.bounded c hc)

-- There is only one chunk that is the first to fit.
theorem eq_of_firstFit (fl : s.FreeList q (pre ++ c :: post)) (hpre : ∀ d ∈ pre, (s.numBytes d).toNat < k)
    (hc : k ≤ (s.numBytes c).toNat) (h : s.FirstFit k d) : d = c := by
  have ⟨pre', post', hch, hpre', hd⟩ := h
  have hcs := hch.unique fl.chain
  have h₁ : (pre ++ c :: post).find? (fun x => decide (k ≤ (s.numBytes x).toNat)) = some c :=
    List.find?_eq_some_iff_append.mpr ⟨by simpa using hc, pre, post, rfl, by simpa using hpre⟩
  have h₂ : (pre' ++ d :: post').find? (fun x => decide (k ≤ (s.numBytes x).toNat)) = some d :=
    List.find?_eq_some_iff_append.mpr ⟨by simpa using hd, pre', post', rfl, by simpa using hpre'⟩
  rw [hcs, h₁] at h₂
  exact (Option.some.inj h₂).symm

end FreeList

theorem release_memory : s.release.memory = s.memory := rfl

namespace FreeList

-- The result is the null pointer if and only if the block lies at the end of the address space.
theorem address_eq_zero_iff (fl : s.FreeList q cs) (hc : c ∈ cs) (ha : size + 8 ≤ s.numBytes c) :
    c + (s.numBytes c - (size + 8)) + 8 = 0 ↔
      if size.toNat + 8 < 2 ^ 64 then size = 0 ∧ s.finish c = 2 ^ 64 else s.finish c = size.toNat := by
  have hf := fl.finish_le hc
  have hb := fl.bounded c hc
  have h24 := s.header_le_extent (c := c)
  unfold finish at *
  split
  case isTrue h  => constructor <;> intro h' <;> bv_omega
  case isFalse h => constructor <;> intro h' <;> bv_omega

theorem sound_of_exact (fl : s.FreeList q cs) (hq : Outside q cs) (hl : s.Unlocked) (h : s.Exact size) :
    s.Sound size := by
  have hr : (allocate (cs.length + 1) s size).isSome := fl.allocate_isSome hl (Nat.lt_succ_self _)
  have ⟨⟨s', p⟩, hr⟩ := Option.isSome_iff_exists.mp hr
  refine ⟨_, s', p, hr, ?_⟩
  have hm {c : BitVec 64} (hc : s.Listed c) : c ∈ cs := fl.mem_iff.mpr hc
  cases fl.allocate_cases hq hr
  case inl hn =>
    have ⟨hp, hs, hn⟩ := hn
    rw [Serves, if_pos hp, hs]
    refine ⟨rfl, rfl, fun c hc => ?_⟩
    have := hn c (hm hc)
    bv_omega
  case inr hc =>
    have ⟨pre, c, post, hcs, hpre, hle, hs, hp⟩ := hc
    subst hcs hs
    unfold Exact at h
    split at h
    case isTrue hsize =>
      refine fl.serves_of_le hq hsize hle ?_ hp
      rw [hp, ne_eq, fl.address_eq_zero_iff (by simp) hle, if_pos hsize]
      intro ⟨h0, hf⟩
      refine h h0 c ⟨pre, post, fl.chain, fun d hd => ?_, by bv_omega⟩ hf
      have := hpre d hd
      bv_omega
    case isFalse hsize =>
      cases h
      case inl h =>
        have := h c (fl.mem_iff.mp (by simp))
        bv_omega
      case inr h =>
        have h0 : size + 8 = 0 := by bv_omega
        have hpre : pre = [] := by
          refine List.eq_nil_iff_forall_not_mem.mpr fun d hd => ?_
          have := hpre d hd
          bv_omega
        subst hpre
        have hc : s.freeList = c := fl.chain.left
        have hb := fl.bounded c (by simp)
        have h24 := s.header_le_extent (c := c)
        have hn : s.locked.numBytes c ≠ 0 := by
          rw [locked_numBytes]
          have := h.right
          rw [hc] at this
          unfold finish at this
          intro h0
          rw [h0] at this
          have : (0 : BitVec 64).toNat = 0 := rfl
          omega
        rw [h0, take_zero hn, Serves, if_pos]
        case hc =>
          rw [hp, fl.address_eq_zero_iff (by simp) hle, if_neg hsize, ← hc]
          omega
        refine ⟨rfl, rfl, fun c hc => ?_⟩
        bv_omega

-- If the size wraps around and there is a chunk for what is left of it, then a block is handed out.
theorem exact_of_sound (fl : s.FreeList q cs) (hq : Outside q cs) (h : s.Sound size) : s.Exact size := by
  have ⟨_, s', p, hr, hs⟩ := h
  unfold Exact
  cases fl.allocate_cases hq hr
  case inl hn =>
    have ⟨_, _, hn⟩ := hn
    split
    case isTrue hsize =>
      intro h0 c hf
      have ⟨pre, post, hch, _, hc⟩ := hf
      have := hn c (by rw [fl.chain.unique hch]; simp)
      bv_omega
    case isFalse hsize =>
      refine .inl fun c hc => ?_
      have := hn c (fl.mem_iff.mpr hc)
      bv_omega
  case inr hc =>
    have ⟨pre, c, post, hcs, hpre, hle, hs', hp⟩ := hc
    subst hcs hs'
    split
    case isTrue hsize =>
      intro h0 d hf hfin
      have hd : d = c := by
        refine fl.eq_of_firstFit (fun d hd => ?_) (by bv_omega) hf
        have := hpre d hd
        bv_omega
      rw [Serves, if_pos] at hs
      case hc =>
        rw [hp, fl.address_eq_zero_iff (by simp) hle, if_pos hsize, ← hd]
        exact ⟨h0, hfin⟩
      have := hs.right.right c (fl.mem_iff.mp (by simp))
      bv_omega
    case isFalse hsize =>
      refine .inr ?_
      unfold Serves at hs
      split at hs
      case isFalse =>
        have ⟨_, _, n, _, ⟨cs, _, hcs⟩, hn, _⟩ := hs
        have hm : Chunk.mk _ n ∈ cs.map s.chunk := hcs ▸ List.mem_append_right _ (List.mem_cons_self ..)
        have ⟨d, _, hd⟩ := List.mem_map.mp hm
        have := (s.numBytes d).isLt
        simp only [chunk, Chunk.mk.injEq] at hd
        omega
      case isTrue h0 =>
        -- The list is only unchanged if nothing is left of the size.
        have hn : (s.locked.take c (size + 8)).numBytes c = s.numBytes c := by
          rw [numBytes, numBytes, ← hs.left, release_memory]
        rw [fl.locked.take_numBytes_self hq hle, locked_numBytes] at hn
        have hs0 : size + 8 = 0 := by bv_omega
        rw [hp, fl.address_eq_zero_iff (by simp) hle, if_neg hsize] at h0
        have hpre : pre = [] := by
          refine List.eq_nil_iff_forall_not_mem.mpr fun d hd => ?_
          have := hpre d hd
          bv_omega
        subst hpre
        have hc : s.freeList = c := fl.chain.left
        rw [hc]
        refine ⟨?_, ?_⟩ <;> bv_omega

end FreeList

theorem outside_zero : Outside 0 cs :=
  fun h => absurd rfl h

-- A request is served as it is supposed to be if and only if its arithmetic is exact.
theorem sound_iff_exact (wf : s.WellFormed) (hl : s.Unlocked) : s.Sound size ↔ s.Exact size :=
  have ⟨_, fl⟩ := wf
  ⟨fl.exact_of_sound outside_zero, fl.sound_of_exact outside_zero hl⟩

-- The free list that consists of a single chunk, in otherwise empty memory.
def single (c n : BitVec 64) : State where
  memory   := Memory.zero.store (c + 16) n
  lock     := fun _ => 0
  freeList := c

theorem single_unlocked : (single c n).Unlocked := rfl

theorem single_numBytes : (single c n).numBytes c = n := load_store

theorem single_freeList (h : c ≠ 0) (hb : c.toNat + max 24 n.toNat ≤ 2 ^ 64) : (single c n).FreeList 0 [c] where
  list := by
    have hn : (single c n).next c = 0 := by
      refine (load_store_of_disjoint ?_).trans load_zero
      apply disjoint_region <;> bv_omega
    have hp : (single c n).prev c = 0 := by
      refine (load_store_of_disjoint ?_).trans load_zero
      apply disjoint_region <;> bv_omega
    exact DoubleChain.cons_iff.mpr ⟨rfl, h, hp, DoubleChain.nil_iff.mpr hn⟩
  ordered := List.pairwise_singleton ..
  bounded := by
    simp only [List.mem_singleton, forall_eq]
    rw [extent, single_numBytes]
    exact hb

theorem single_wellFormed (h : c ≠ 0) (hb : c.toNat + max 24 n.toNat ≤ 2 ^ 64) : (single c n).WellFormed :=
  ⟨_, single_freeList h hb⟩

theorem single_sound : (single 64 64).Sound 16 :=
  sound_iff_exact (single_wellFormed (by decide) (by decide)) single_unlocked |>.mpr <| by
    rw [Exact, if_pos (by decide)]
    exact fun h => absurd h (by decide)

theorem single_not_sound :
    (single 64 64).WellFormed ∧ (single 64 64).Unlocked ∧ ¬(single 64 64).Sound 0xFFFFFFFFFFFFFFF8 := by
  have fl : (single 64 64).FreeList 0 [64] := single_freeList (by decide) (by decide)
  refine ⟨⟨_, fl⟩, single_unlocked, fun h => ?_⟩
  have h := fl.exact_of_sound outside_zero h
  rw [Exact, if_neg (by decide)] at h
  cases h
  case inl h =>
    have := h 64 (fl.mem_iff.mp (by simp))
    rw [single_numBytes] at this
    exact absurd this (by decide)
  case inr h =>
    have := h.right
    rw [finish, show (single 64 64).freeList = 64 from rfl, single_numBytes] at this
    exact absurd this (by decide)

end State
end Alloc
