import Xesual.Heap.Theorems.Calls

-- What `allocate` and `free` do to the bytes that are occupied by the free list.

namespace Alloc

open Linked Memory

namespace State

variable {s s' : State} {b c n q : BitVec 64} {cs pre post : List (BitVec 64)} {e fuel : Nat}

-- The bytes that are occupied by the chunks of a list.
def occupied (s : State) (cs : List (BitVec 64)) : Set (BitVec 64) :=
  { k | ∃ c ∈ cs, k ∈ region c (s.extent c) }

-- The bytes of their headers.
def headers (cs : List (BitVec 64)) : Set (BitVec 64) :=
  { k | ∃ c ∈ cs, k ∈ header c }

theorem header_subset_headers (h : c ∈ cs) : header c ⊆ headers cs :=
  fun _ hk => ⟨c, h, hk⟩

theorem region_subset_occupied (h : c ∈ cs) : region c (s.extent c) ⊆ s.occupied cs :=
  fun _ hk => ⟨c, h, hk⟩

-- A block that does not overlap with the chunks has its place in the list.
theorem FreeList.exists_between (fl : s.FreeList q cs) (hd : Disjoint (region b e) (s.occupied cs)) (he : 24 ≤ e)
    (hb : b.toNat + e ≤ 2 ^ 64) : ∃ pre post, cs = pre ++ post ∧ s.Between b e pre post := by
  have ⟨pre, post, hcs, hpre, hpost⟩ := exists_split (b := b) fl.sorted
  refine ⟨pre, post, hcs, ?below, ?above, he, hb⟩
  case below =>
    intro c hc
    have hd := hd.mono_right <| region_subset_occupied (c := c) (by simp [hcs, hc])
    exact le_of_disjoint_region hd.symm (BitVec.not_lt.mp <| hpre c hc) (by omega)
  case above =>
    intro c hc
    have hd := hd.mono_right <| region_subset_occupied (c := c) (by simp [hcs, hc])
    have := s.header_le_extent (c := c)
    exact le_of_disjoint_region hd (Nat.le_of_lt <| hpost c hc) (by omega)

section Link

variable (fl : s.FreeList q (pre ++ post)) (hb : s.Between b e pre post)

include fl hb

theorem changes_link : s.memory.Changes (s.link b n (pre.getLastD 0) (post.headD 0)).memory
    (header b ∪ headers (pre ++ post)) := by
  have hd {c : BitVec 64} (hc : c ∈ pre ++ post) := hb.disjoint_header fl hc
  have h₁ := changes_linkNext (s := s) (n := n) fun h => hd (FreeList.headD_mem h)
  have h₂ := changes_linkPrev (s := s.linkNext b n (post.headD 0)) (n := n) fun h =>
    hd (FreeList.getLastD_mem h)
  refine (h₁.mono ?_).trans (h₂.mono ?_)
  case refine_1 =>
    refine Set.union_subset_union_right _ fun k hk => ?_
    exact header_subset_headers (FreeList.headD_mem hk.left) <| word_subset (by decide) hk.right
  case refine_2 =>
    refine Set.union_subset_union (word_subset (by decide)) fun k hk => ?_
    refine header_subset_headers (FreeList.getLastD_mem hk.left) ?_
    exact hk.right.elim (next_subset ·) (word_subset (by decide) ·)

-- No chunk is extended if none of them ends where the block begins.
theorem extent_link (hne : ∀ c ∈ pre ++ post, c + s.numBytes c ≠ b) (hc : c ∈ pre ++ post) :
    (s.link b n (pre.getLastD 0) (post.headD 0)).extent c = s.extent c := by
  rw [extent, extent, fl.numBytes_link (fun _ hc => hb.disjoint_header fl hc) hc, if_neg fun h => hne c hc h.right]

-- The extent of the new chunk. It may reach to the end of the chunk behind it.
theorem extent_link_self (hs : s.numBytes b = n) (hn : n.toNat ≤ e) :
    if Adjacent b n (post.headD 0) then
      b.toNat + (s.link b n (pre.getLastD 0) (post.headD 0)).extent b ≤
        (post.headD 0).toNat + s.extent (post.headD 0)
    else
      (s.link b n (pre.getLastD 0) (post.headD 0)).extent b ≤ e := by
  have hlarge := hb.large
  have hbound := hb.bounded
  rw [extent, FreeList.numBytes_link_self (fun _ hc => hb.disjoint_header fl hc), hs, sizeofFreeChunk]
  split
  case isFalse => omega
  case isTrue h =>
    have hmem : post.headD 0 ∈ post := by
      rw [FreeList.eq_cons_of_adjacent h]
      simp
    have habove := hb.above _ hmem
    have hd := fl.bounded _ (List.mem_append_right _ hmem)
    have hle := s.numBytes_le_extent (c := post.headD 0)
    obtain ⟨_, h⟩ := h
    generalize post.headD 0 = d at *
    generalize s.numBytes d = m at *
    bv_omega

-- The chunks behind the new one.
omit fl hb in
theorem rest_sublist : (if Adjacent b n (post.headD 0) then post.tail else post).Sublist post := by
  split
  case isTrue  => exact List.tail_sublist post
  case isFalse => exact List.Sublist.refl post

omit fl hb in
theorem mem_linked (h : c ∈ pre ++ b :: if Adjacent b n (post.headD 0) then post.tail else post) :
    c = b ∨ c ∈ pre ++ post := by
  simp only [List.mem_append, List.mem_cons] at h ⊢
  rcases h with h | h | h
  case inl     => exact .inr <| .inl h
  case inr.inl => exact .inl h
  case inr.inr => exact .inr <| .inr <| rest_sublist.subset h

-- The list thereafter.
section Linked

variable (hs : s.numBytes b = n) (hn : n.toNat ≤ e) (hne : ∀ c ∈ pre ++ post, c + s.numBytes c ≠ b)

include hs hn hne

theorem occupied_link : (s.link b n (pre.getLastD 0) (post.headD 0)).occupied
    (pre ++ b :: if Adjacent b n (post.headD 0) then post.tail else post) ⊆
      region b e ∪ s.occupied (pre ++ post) := by
  intro k ⟨c, hc, hk⟩
  cases mem_linked hc
  case inr hc =>
    rw [extent_link fl hb hne hc] at hk
    exact .inr ⟨c, hc, hk⟩
  case inl hc =>
    subst hc
    have hself := extent_link_self fl hb hs hn
    split at hself
    case isFalse => exact .inl <| region_subset_of_le (Nat.le_refl _) (by omega) hk
    case isTrue h =>
      -- The bytes of the chunk behind the block follow the ones of the block.
      have hmem : post.headD 0 ∈ pre ++ post := FreeList.headD_mem h.left
      have hbound := fl.bounded _ hmem
      have hk := mem_region_iff (by omega) |>.mp hk
      by_cases hlt : k.toNat < (post.headD 0).toNat
      case neg => exact .inr ⟨_, hmem, mem_region_iff hbound |>.mpr ⟨Nat.not_lt.mp hlt, by omega⟩⟩
      case pos =>
        refine .inl <| mem_region_iff hb.bounded |>.mpr ⟨hk.left, ?_⟩
        have := hb.bounded
        rw [← h.right] at hlt
        bv_omega

theorem FreeList.link (hb0 : b ≠ 0) (hp : pre ≠ []) (hadj : Adjacent b n (post.headD 0) → post.tail = []) :
    (s.link b n (pre.getLastD 0) (post.headD 0)).FreeList q
      (pre ++ b :: if Adjacent b n (post.headD 0) then post.tail else post) := by
  have hext {c : BitVec 64} (hc : c ∈ pre ++ post) := extent_link (n := n) fl hb hne hc
  have hself := extent_link_self fl hb hs hn
  constructor
  case list =>
    rw [link_freeList]
    exact fl.list_link (fun _ hc => hb.disjoint_header fl hc) hb0 hp hadj
  case ordered =>
    have hsub : (pre ++ if Adjacent b n (post.headD 0) then post.tail else post).Sublist (pre ++ post) :=
      rest_sublist.append_left pre
    have hold := (fl.ordered.sublist hsub).imp_of_mem (S := fun c d =>
      c.toNat + (s.link b n (pre.getLastD 0) (post.headD 0)).extent c ≤ d.toNat) fun hc _ h => by
        rwa [hext (hsub.subset hc)]
    have ⟨hpre, hrest, hcross⟩ := List.pairwise_append.mp hold
    refine List.pairwise_append.mpr ⟨hpre, List.pairwise_cons.mpr ⟨fun c hc => ?_, hrest⟩, fun c hc d hd => ?_⟩
    case refine_1 =>
      split at hself
      case isTrue h =>
        rw [if_pos h, hadj h] at hc
        exact absurd hc List.not_mem_nil
      case isFalse h =>
        rw [if_neg h] at hc
        have := hb.above c hc
        omega
    case refine_2 =>
      cases List.mem_cons.mp hd
      case inr hd => exact hcross c hc d hd
      case inl hd =>
        rw [hd, hext (List.mem_append_left _ hc)]
        exact hb.below c hc
  case bounded =>
    intro c hc
    cases mem_linked hc
    case inr hc =>
      rw [hext hc]
      exact fl.bounded c hc
    case inl hc =>
      subst hc
      split at hself
      case isTrue h =>
        have hmem : post.headD 0 ∈ pre ++ post := FreeList.headD_mem h.left
        have := fl.bounded _ hmem
        omega
      case isFalse =>
        have := hb.bounded
        omega

end Linked
end Link

-- A block that is freed below the first chunk does not get on the list. The first chunk is linked to it nevertheless.
section Below

variable (fl : s.FreeList q ([] ++ cs)) (hb : s.Between b e [] cs)

include fl hb

theorem numBytes_link_below (hc : c ∈ cs) : (s.link b n 0 (cs.headD 0)).numBytes c = s.numBytes c := by
  have h : (s.link b n 0 (cs.headD 0)).numBytes c =
      if c = 0 ∧ c + s.numBytes c = b then s.numBytes c + n else s.numBytes c :=
    fl.numBytes_link (fun _ hc => hb.disjoint_header fl hc) hc
  rw [h, if_neg fun h => fl.ne_null hc h.left]

theorem FreeList.link_below : (s.link b n 0 (cs.headD 0)).FreeList b cs := by
  have hd (c : BitVec 64) (hc : c ∈ [] ++ cs) := hb.disjoint_header fl hc
  have hnext {c : BitVec 64} (hc : c ∈ cs) : (s.link b n 0 (cs.headD 0)).next c = if c = 0 then b else s.next c :=
    fl.next_link hd hc
  have hprev {c : BitVec 64} (hc : c ∈ cs) :
      (s.link b n 0 (cs.headD 0)).prev c = if c = cs.headD 0 then b else s.prev c :=
    fl.prev_link hd hc
  have hnull : s.freeList = cs.headD 0 := by
    cases cs
    case nil  => exact DoubleChain.nil_iff.mp fl.list
    case cons => exact (DoubleChain.cons_iff.mp fl.list).left
  refine of_sublist fl (.refl _) (fun c hc => numBytes_link_below fl hb hc) ?_
  rw [link_freeList]
  refine fl.list.redirect fl.nodup (fun c hc => ?_) (fun c hc h => ?_) fun h => ?_
  case refine_1 => rw [hnext hc, if_neg (fl.ne_null hc)]
  case refine_2 => rw [hprev hc, if_neg (hnull ▸ h)]
  case refine_3 => rw [hprev (fl.list.head_mem h), if_pos hnull]

end Below

theorem locked_occupied : s.locked.occupied cs = s.occupied cs := rfl
theorem release_occupied : s.release.occupied cs = s.occupied cs := rfl

-- What `free` results in if the list is not empty. The state `s₁` is the one in which the block has been cleared.
theorem FreeList.exists_link (fl : s.FreeList q (pre ++ post)) (hb : s.Between b e pre post)
    (hn : (s.blockSize (b + 8)).toNat ≤ e) (hf : s.freeList ≠ 0) (h : free fuel s (b + 8) = some s') :
    ∃ s₁ : State, s.memory.Changes s₁.memory (region b e) ∧ s₁.FreeList q (pre ++ post) ∧ s₁.Between b e pre post ∧
      s₁.numBytes b = s.blockSize (b + 8) ∧ s₁.freeList = s.freeList ∧
      s' = (s₁.link b (s.blockSize (b + 8)) (pre.getLastD 0) (post.headD 0)).release := by
  have hl := unlocked_of_free h
  have hm : b + 8 - sizeofUnfreeChunk = b := BitVec.add_sub_cancel b 8
  have hc : s.cleared (b + 8) = s.clear b (s.blockSize (b + 8)) := by rw [cleared, hm]
  have hr := fl.free_eq hl hb hn hf (Nat.lt_succ_self _)
  have h : execute fuel s (.free (b + 8)) = some s' := h
  have he := execute_deterministic hl h hr
  rw [hc] at he
  have hch := changes_clear hb hn
  have fl₁ := fl.clear hb hn
  have hb₁ := Between.clear fl hb hn
  have hsize := clear_numBytes (s := s) (b := b) (n := s.blockSize (b + 8))
  have hfree : (s.clear b (s.blockSize (b + 8))).freeList = s.freeList := clear_freeList
  generalize s.clear b (s.blockSize (b + 8)) = s₁ at *
  exact ⟨s₁.locked, hch, fl₁.locked, hb₁.locked, hsize, hfree, he⟩

theorem clear_next (h : 8 ≤ n.toNat) : (s.clear b n).next b = 0 := by
  rw [clear, setNumBytes_next]
  refine load_fill_zero ?_
  bv_omega

theorem clear_prev (h : 16 ≤ n.toNat) : (s.clear b n).prev b = 0 := by
  rw [clear, setNumBytes_prev]
  refine load_fill_zero ?_
  bv_omega

section Free

variable (he : 24 ≤ e) (hb : b.toNat + e ≤ 2 ^ 64) (hb0 : b ≠ 0) (hn : (s.blockSize (b + 8)).toNat ≤ e)

include he hb hb0 hn

-- A block that is put on an empty list becomes its only chunk.
theorem free_nil (hf : s.freeList = 0) (h16 : 16 ≤ (s.blockSize (b + 8)).toNat)
    (h : free fuel s (b + 8) = some s') :
    s.memory.Changes s'.memory (region b e) ∧ s'.FreeList 0 [b] ∧ s'.extent b ≤ e := by
  have hl := unlocked_of_free h
  have hm : b + 8 - sizeofUnfreeChunk = b := BitVec.add_sub_cancel b 8
  have hc : s.cleared (b + 8) = s.clear b (s.blockSize (b + 8)) := by rw [cleared, hm]
  have h : execute fuel s (.free (b + 8)) = some s' := h
  obtain ⟨_, hs⟩ := execute_free_iff hl |>.mp h
  have hbt : s.Between b e [] [] := ⟨by simp, by simp, he, hb⟩
  have hch := changes_clear hbt hn
  have hnext := clear_next (s := s) (b := b) (n := s.blockSize (b + 8)) (by omega)
  have hprev := clear_prev (s := s) (b := b) h16
  have hsize := clear_numBytes (s := s) (b := b) (n := s.blockSize (b + 8))
  rw [if_pos hf, locked_cleared, hc, BitVec.add_sub_cancel] at hs
  generalize s.clear b (s.blockSize (b + 8)) = s₁ at *
  subst hs
  have hext : s₁.extent b ≤ e := by
    rw [extent, hsize, sizeofFreeChunk]
    omega
  refine ⟨hch, ⟨?list, by simp, ?bounded⟩, hext⟩
  case list => exact DoubleChain.cons_iff.mpr ⟨rfl, hb0, hprev, DoubleChain.nil_iff.mpr hnext⟩
  case bounded =>
    intro c hc
    rw [List.mem_singleton.mp hc]
    exact Nat.le_trans (Nat.add_le_add_left hext _) hb

variable (fl : s.FreeList q cs) (hne : ∀ c ∈ cs, c + s.numBytes c ≠ b)
variable (hadj : ∀ c ∈ cs, b + s.blockSize (b + 8) = c → c = s.freeList ∨ s.next c = 0)

omit he hb hb0 hn in
include fl hadj in
-- The chunk behind a block in the middle of the list is the last one if it is adjacent.
theorem tail_eq_nil (hcs : cs = pre ++ post) (hp : pre ≠ [])
    (h : Adjacent b (s.blockSize (b + 8)) (post.headD 0)) : post.tail = [] := by
  subst hcs
  have hpost := FreeList.eq_cons_of_adjacent h
  have hmem : post.headD 0 ∈ pre ++ post := FreeList.headD_mem h.left
  have hf := fl.list.head_mem_of_append hp
  cases hadj _ hmem h.right
  case inl hd =>
    rw [hpost] at fl
    have hd' := List.nodup_append.mp fl.nodup |>.right.right _ hf _ List.mem_cons_self
    exact absurd hd.symm hd'
  case inr hd =>
    rw [hpost] at fl
    have hchain := fl.next_eq.chain
    rw [hd] at hchain
    exact hchain.eq_nil_iff.mpr rfl

-- What `free` results in. The block becomes a chunk of the list, or it is lost in front of it.
include fl hne hadj in
theorem FreeList.free_cases (hd : Disjoint (region b e) (s.occupied cs))
    (hf : s.freeList = 0 → 16 ≤ (s.blockSize (b + 8)).toNat) (h : free fuel s (b + 8) = some s') :
    s.memory.Changes s'.memory (region b e ∪ headers cs) ∧ ∃ q' cs', s'.FreeList q' cs' ∧
      s'.occupied cs' ⊆ region b e ∪ s.occupied cs ∧
      (q' = 0 ∨ q' = q ∨ q' = b ∧ s'.occupied cs' ⊆ s.occupied cs) := by
  by_cases h0 : s.freeList = 0
  case pos =>
    obtain ⟨hch, fl', hext⟩ := free_nil he hb hb0 hn h0 (hf h0) h
    refine ⟨hch.mono Set.subset_union_left, 0, [b], fl', fun k hk => ?_, .inl rfl⟩
    obtain ⟨c, hc, hk⟩ := hk
    rw [List.mem_singleton.mp hc] at hk
    exact .inl <| region_subset_of_le (Nat.le_refl _) (by omega) hk
  case neg =>
    obtain ⟨pre, post, hcs, hbt⟩ := fl.exists_between hd he hb
    have htail := tail_eq_nil fl hadj hcs
    subst hcs
    obtain ⟨s₁, hch, fl₁, hbt₁, hsize, hfree, hs⟩ := fl.exists_link hbt hn h0 h
    have hbytes (c : BitVec 64) (hc : c ∈ pre ++ post) : s₁.numBytes c = s.numBytes c :=
      numBytes_of_changes hch (disjoint_clear fl hbt hc)
    have hocc : s₁.occupied (pre ++ post) ⊆ s.occupied (pre ++ post) := by
      rintro k ⟨c, hc, hk⟩
      rw [extent, hbytes c hc] at hk
      exact ⟨c, hc, hk⟩
    have hlink := changes_link (n := s.blockSize (b + 8)) fl₁ hbt₁
    generalize s.blockSize (b + 8) = n at *
    subst hs
    refine ⟨?changes, ?_⟩
    case changes =>
      rw [release_memory]
      refine (hch.mono Set.subset_union_left).trans (hlink.mono ?_)
      exact Set.union_subset_union_left _ hbt.header_subset
    cases pre
    case nil =>
      rw [List.nil_append] at hocc ⊢
      have hsub : (s₁.link b n 0 (post.headD 0)).occupied post ⊆ s.occupied post := by
        rintro k ⟨c, hc, hk⟩
        rw [extent, numBytes_link_below fl₁ hbt₁ hc] at hk
        exact hocc ⟨c, hc, hk⟩
      refine ⟨b, post, ?_⟩
      rw [List.getLastD_nil, release_occupied]
      exact ⟨(FreeList.link_below fl₁ hbt₁).release, hsub.trans Set.subset_union_right, .inr <| .inr ⟨rfl, hsub⟩⟩
    case cons a pre =>
      have hne₁ (c : BitVec 64) (hc : c ∈ a :: pre ++ post) : c + s₁.numBytes c ≠ b := by
        rw [hbytes c hc]
        exact hne c hc
      have fl₂ := FreeList.link fl₁ hbt₁ hsize hn hne₁ hb0 (List.cons_ne_nil a pre) (htail (List.cons_ne_nil a pre))
      refine ⟨q, _, fl₂.release, ?_, .inr <| .inl rfl⟩
      rw [release_occupied]
      exact (occupied_link fl₁ hbt₁ hsize hn hne₁).trans <| Set.union_subset_union_right _ hocc

end Free

-- A block that is cut off the end of a chunk. If the chunk is not used up then it keeps its header.
section Take

variable {a : BitVec 64} (fl : s.FreeList q (pre ++ c :: post)) (hq : Outside q (pre ++ c :: post))
variable (ha : a ≤ s.numBytes c)

include ha

theorem cut_subset : region (c + (s.numBytes c - a)) a.toNat ⊆ region c (s.extent c) := by
  have := s.numBytes_le_extent (c := c)
  apply region_subset
  bv_omega

include fl hq

theorem occupied_take (h : (s.numBytes c).toNat = a.toNat ∨ a.toNat + 24 ≤ (s.numBytes c).toNat) :
    (s.take c a).occupied (pre ++ s.remainder c a ++ post) ⊆ s.occupied (pre ++ c :: post) ∧
    Disjoint (region (c + (s.numBytes c - a)) a.toNat) ((s.take c a).occupied (pre ++ s.remainder c a ++ post)) := by
  have key {k : BitVec 64} (hk : k ∈ (s.take c a).occupied (pre ++ s.remainder c a ++ post)) :
      k ∈ s.occupied (pre ++ c :: post) ∧ k ∉ region (c + (s.numBytes c - a)) a.toNat := by
    obtain ⟨d, hd, hk⟩ := hk
    by_cases hdc : d ∈ pre ++ post
    case pos =>
      obtain ⟨hm, hne⟩ := fl.mem_of_mem_rest hdc
      rw [extent, fl.take_numBytes hq ha hdc] at hk
      refine ⟨⟨d, hm, hk⟩, fun hcut => ?_⟩
      exact Set.disjoint_left.mp (fl.disjoint hm (by simp) hne) hk (cut_subset ha hcut)
    case neg =>
      -- The chunk itself is left, with fewer bytes than before.
      have hd : d = c ∧ a < s.numBytes c := by
        unfold remainder at hd
        split at hd
        case isTrue h  => exact ⟨by simp_all, h⟩
        case isFalse h => simp_all
      obtain ⟨hd, hlt⟩ := hd
      subst hd
      have hbound := fl.bounded d (by simp)
      have hle := s.numBytes_le_extent (c := d)
      rw [extent, fl.take_numBytes_self hq ha, sizeofFreeChunk] at hk
      generalize hm : s.numBytes d = m at *
      have hk : d.toNat ≤ k.toNat ∧ k.toNat < d.toNat + (m.toNat - a.toNat) := by
        have := mem_region_iff (by bv_omega) |>.mp hk
        bv_omega
      refine ⟨⟨d, by simp, mem_region_iff hbound |>.mpr (by omega)⟩, fun hcut => ?_⟩
      have hcut := mem_region_iff (by bv_omega) |>.mp hcut
      bv_omega
  exact ⟨fun _ hk => (key hk).left, Set.disjoint_right.mpr fun _ hk => (key hk).right⟩

end Take
end State
end Alloc
