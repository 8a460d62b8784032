import Xesual.Heap.Theorems.Link

namespace Alloc

open Linked Memory

namespace State

variable {s s' : State} {a b c d mem n q : BitVec 64} {cs pre post : List (BitVec 64)} {fuel : Nat}

theorem locked_next : s.locked.next = s.next := rfl
theorem locked_freeList : s.locked.freeList = s.freeList := rfl
theorem locked_blockSize : s.locked.blockSize mem = s.blockSize mem := rfl
theorem locked_cleared : s.locked.cleared mem = (s.cleared mem).locked := rfl
theorem clear_freeList {base n : BitVec 64} : (s.clear base n).freeList = s.freeList := rfl

theorem cleared_freeList : (s.cleared mem).freeList = s.freeList :=
  clear_freeList

-- What `free` does, in terms of the position that has been found.
theorem free_of_unlocked (h : s.Unlocked) : free (fuel + 1) s mem =
    if s.freeList = 0 then some ((s.locked.cleared mem).setFreeList (mem - 8)).release
    else (findPosition (s.locked.cleared mem) (mem - 8) (fuel + 1) 0 s.freeList).map fun (prev, next) =>
      ((s.locked.cleared mem).link (mem - 8) (s.blockSize mem) prev next).release := by
  have hl : s.acquire (fuel + 1) = some s.locked := acquire_eq_some_iff.mpr ⟨h, Nat.succ_pos _, rfl⟩
  have hc : s.locked.clear (mem - sizeofUnfreeChunk) (s.blockSize mem) = s.locked.cleared mem := by
    rw [cleared, locked_blockSize]
  simp only [free, hl, locked_blockSize, hc, cleared_freeList, locked_freeList, Option.bind_eq_bind, Option.bind_some,
    Option.pure_def]
  split
  case isTrue  => rfl
  case isFalse => rw [Option.map_eq_bind]; rfl

theorem unlocked_of_free (h : free fuel s mem = some s') : s.Unlocked := by
  by_contra hl
  have ha : s.acquire fuel = none := by
    refine Option.eq_none_iff_forall_ne_some.mpr fun s' hs => ?_
    exact hl (acquire_eq_some_iff.mp hs).left
  unfold free at h
  rw [ha] at h
  cases h

-- The position of `b` in a sorted list.
theorem exists_split (h : cs.Pairwise (fun c d => c.toNat < d.toNat)) :
    ∃ pre post, cs = pre ++ post ∧ (∀ c ∈ pre, ¬c > b) ∧ ∀ c ∈ post, c > b := by
  induction cs
  case nil => exact ⟨[], [], rfl, by simp, by simp⟩
  case cons c cs ih =>
    have ⟨hc, h⟩ := List.pairwise_cons.mp h
    by_cases hb : c > b
    case pos =>
      refine ⟨[], c :: cs, rfl, by simp, fun d hd => ?_⟩
      cases hd
      case head    => exact hb
      case tail hd =>
        have := hc d hd
        bv_omega
    case neg =>
      have ⟨pre, post, hcs, hpre, hpost⟩ := ih h
      exact ⟨c :: pre, post, by rw [hcs]; rfl, List.forall_mem_cons.mpr ⟨hb, hpre⟩, hpost⟩

theorem findPosition_eq {fuel : Nat} {x p : BitVec 64} (h : Chain s.next 0 p (pre ++ post)) (hpre : ∀ c ∈ pre, ¬c > b)
    (hpost : ∀ c ∈ post, c > b) (hf : pre.length < fuel) :
    findPosition s b fuel x p = some (pre.getLastD x, post.headD 0) := by
  induction fuel generalizing x p pre
  case zero => omega
  case succ ih =>
    unfold findPosition
    cases pre
    case nil =>
      cases post
      case nil =>
        have hp : p = 0 := h
        rw [if_pos hp, hp]
        rfl
      case cons c post =>
        have hp : p = c := h.left
        have hc := hpost c (by simp)
        rw [if_neg (hp ▸ h.right.left), hp, if_pos hc]
        rfl
    case cons c pre =>
      have ⟨hp, hc, h⟩ := h
      subst hp
      rw [if_neg hc, if_neg (hpre p (by simp)),
        ih h (fun c hc => hpre c (by simp [hc])) (by simpa using hf), List.getLastD_cons]

namespace FreeList

-- Linking a block `b` into the list. It stands behind the chunks `pre` and in front of the chunks `post`, and its
-- header does not overlap with theirs.
section Link

variable {pre' : List (BitVec 64)} (fl : s.FreeList q (pre ++ post))
  (hb : ∀ c ∈ pre ++ post, Disjoint (header b) (header c))

include fl hb

omit fl hb in
theorem getLastD_mem (h : pre.getLastD 0 ≠ 0) : pre.getLastD 0 ∈ pre ++ post := by
  refine List.mem_append_left _ ?_
  cases List.eq_nil_or_concat pre
  case inl hp => simp [hp] at h
  case inr hp =>
    have ⟨_, _, hp⟩ := hp
    simp [hp]

omit fl hb in
theorem headD_mem (h : post.headD 0 ≠ 0) : post.headD 0 ∈ pre ++ post := by
  refine List.mem_append_right _ ?_
  cases post
  case nil  => simp at h
  case cons => simp

-- The fields of the chunks of the list, and of the block.
theorem next_link (hc : c ∈ pre ++ post) : (s.link b n (pre.getLastD 0) (post.headD 0)).next c =
    if c = pre.getLastD 0 then b else s.next c :=
  link_next hb (fun _ hc _ hd => fl.disjoint_header hc hd) getLastD_mem headD_mem (fun _ => fl.ne_null) hc

theorem prev_link (hc : c ∈ pre ++ post) : (s.link b n (pre.getLastD 0) (post.headD 0)).prev c =
    if c = post.headD 0 then b else s.prev c :=
  link_prev hb (fun _ hc _ hd => fl.disjoint_header hc hd) getLastD_mem headD_mem (fun _ => fl.ne_null) hc

theorem numBytes_link (hc : c ∈ pre ++ post) : (s.link b n (pre.getLastD 0) (post.headD 0)).numBytes c =
    if c = pre.getLastD 0 ∧ c + s.numBytes c = b then s.numBytes c + n else s.numBytes c :=
  link_numBytes hb (fun _ hc _ hd => fl.disjoint_header hc hd) getLastD_mem headD_mem (fun _ => fl.ne_null) hc

omit fl in
theorem prev_link_self : (s.link b n (pre.getLastD 0) (post.headD 0)).prev b = pre.getLastD 0 :=
  link_prev_self hb getLastD_mem

omit fl in
theorem next_link_self : (s.link b n (pre.getLastD 0) (post.headD 0)).next b =
    if Adjacent b n (post.headD 0) then s.next (post.headD 0) else post.headD 0 :=
  link_next_self hb getLastD_mem headD_mem

omit fl in
theorem numBytes_link_self : (s.link b n (pre.getLastD 0) (post.headD 0)).numBytes b =
    if Adjacent b n (post.headD 0) then s.numBytes b + s.numBytes (post.headD 0) else s.numBytes b :=
  link_numBytes_self hb getLastD_mem headD_mem

omit hb in
theorem front (a : BitVec 64) (h : pre = pre' ++ [a]) :
    Double s.next s.prev 0 q s.freeList pre' (s.prev a) a ∧ a ≠ 0 ∧
      DoubleChain s.next s.prev 0 a (post.headD 0) post := by
  have ⟨t, r, d, h'⟩ := DoubleChain.append_iff.mp fl.list
  rw [h] at d
  have ⟨d, ha, ht, _⟩ := Double.concat_iff.mp d
  subst ht
  refine ⟨d, ha, ?_⟩
  cases post
  case nil  => simp
  case cons => exact (DoubleChain.cons_iff.mp h').left ▸ h'

omit hb in
theorem not_mem_post (h : pre ≠ []) : pre.getLastD 0 ∉ post := by
  cases List.eq_nil_or_concat pre
  case inl hp => exact absurd hp h
  case inr hp =>
    have ⟨pre', a, hp⟩ := hp
    have hd := fl.nodup
    rw [hp, List.concat_eq_append] at hd ⊢
    rw [List.getLastD_concat]
    exact List.disjoint_of_nodup_append hd (by simp)

-- The chunks up to the block.
theorem front_link (hb0 : b ≠ 0) (h : pre ≠ []) :
    Double (s.link b n (pre.getLastD 0) (post.headD 0)).next (s.link b n (pre.getLastD 0) (post.headD 0)).prev 0 q
      s.freeList (pre ++ [b]) b ((s.link b n (pre.getLastD 0) (post.headD 0)).next b) := by
  have hnext {c : BitVec 64} (hc : c ∈ pre ++ post) := fl.next_link (n := n) hb hc
  have hprev {c : BitVec 64} (hc : c ∈ pre ++ post) := fl.prev_link (n := n) hb hc
  have hself := prev_link_self (s := s) (n := n) hb
  generalize s.link b n (pre.getLastD 0) (post.headD 0) = s' at *
  have hd : (pre ++ post).Nodup := fl.nodup
  -- The chunks in front of the block do not stand behind it.
  have hne (c : BitVec 64) (hc : c ∈ pre) : c ≠ post.headD 0 := by
    intro he
    have h0 := fl.ne_null (List.mem_append_left _ hc)
    cases post
    case nil  => exact h0 he
    case cons => exact List.disjoint_of_nodup_append hd hc (by simp [he])
  cases List.eq_nil_or_concat pre
  case inl hp => exact absurd hp h
  case inr hp =>
    have ⟨pre', a, hp⟩ := hp
    rw [List.concat_eq_append] at hp
    have hlast : pre.getLastD 0 = a := by rw [hp, List.getLastD_concat]
    have ⟨d, ha, _⟩ := fl.front a hp
    rw [hlast] at hnext hself
    refine Double.concat_iff.mpr ⟨?_, hb0, rfl, rfl⟩
    rw [hself, hp]
    have hpa : s'.prev a = s.prev a := by
      rw [hprev (by rw [hp]; simp), if_neg (hne a (by rw [hp]; simp))]
    refine Double.concat_iff.mpr ⟨?_, ha, rfl, ?_⟩
    case refine_1 =>
      rw [hpa]
      refine d.congr (fun x hx => ?_) (fun x hx => ?_)
      case refine_1 =>
        have hxa : x ≠ a := by
          intro he
          rw [hp, List.append_assoc] at hd
          exact List.disjoint_of_nodup_append hd hx (by simp [he])
        rw [hnext (by rw [hp]; simp [hx]), if_neg hxa]
      case refine_2 => rw [hprev (by rw [hp]; simp [hx]), if_neg (hne x (by rw [hp]; simp [hx]))]
    case refine_2 => rw [hnext (by rw [hp]; simp), if_pos rfl]

omit fl hb in
theorem eq_cons_of_adjacent (h : Adjacent b n (post.headD 0)) : post = post.headD 0 :: post.tail := by
  cases post
  case nil  => exact absurd rfl h.left
  case cons => rfl

-- The chunks behind the block, from which an adjacent chunk has been removed.
theorem rest_link (h : pre ≠ []) :
    Chain (s.link b n (pre.getLastD 0) (post.headD 0)).next 0 ((s.link b n (pre.getLastD 0) (post.headD 0)).next b)
      (if Adjacent b n (post.headD 0) then post.tail else post) := by
  have hlast := fl.not_mem_post h
  have hnext (c : BitVec 64) (hc : c ∈ post) :
      (s.link b n (pre.getLastD 0) (post.headD 0)).next c = s.next c := by
    rw [fl.next_link hb (List.mem_append_right _ hc), if_neg (ne_of_mem_of_not_mem hc hlast)]
  have hchain : Chain s.next 0 (post.headD 0) post := fl.chain.head_of_append.right
  rw [next_link_self hb]
  split
  case isFalse => exact Segment.congr hchain hnext
  case isTrue hadj =>
    rw [eq_cons_of_adjacent hadj] at hchain
    exact Segment.congr hchain.right.right fun c hc => hnext c (List.mem_of_mem_tail hc)

theorem rest_link_double (h : pre ≠ []) (hadj : Adjacent b n (post.headD 0) → post.tail = []) :
    DoubleChain (s.link b n (pre.getLastD 0) (post.headD 0)).next (s.link b n (pre.getLastD 0) (post.headD 0)).prev 0 b
      ((s.link b n (pre.getLastD 0) (post.headD 0)).next b)
      (if Adjacent b n (post.headD 0) then post.tail else post) := by
  by_cases hd : Adjacent b n (post.headD 0)
  case pos =>
    have hc := fl.rest_link (n := n) hb h
    rw [if_pos hd, hadj hd] at hc ⊢
    exact DoubleChain.nil_iff.mpr hc
  case neg =>
    have hlast := fl.not_mem_post h
    have ⟨pre', a, hp⟩ := (List.eq_nil_or_concat pre).resolve_left h
    have ⟨_, _, hpost⟩ := fl.front a (List.concat_eq_append .. ▸ hp)
    rw [next_link_self hb, if_neg hd, if_neg hd]
    refine hpost.redirect (List.nodup_append.mp fl.nodup).right.left (fun c hc => ?_) (fun c hc hne => ?_) fun h0 => ?_
    case refine_1 => rw [fl.next_link hb (List.mem_append_right _ hc), if_neg (ne_of_mem_of_not_mem hc hlast)]
    case refine_2 => rw [fl.prev_link hb (List.mem_append_right _ hc), if_neg hne]
    case refine_3 => rw [fl.prev_link hb (headD_mem h0), if_pos rfl]

-- The list after the block has been linked in.
theorem chain_link (hb0 : b ≠ 0) (h : pre ≠ []) :
    Chain (s.link b n (pre.getLastD 0) (post.headD 0)).next 0 s.freeList
      (pre ++ b :: if Adjacent b n (post.headD 0) then post.tail else post) := by
  rw [← List.singleton_append, ← List.append_assoc]
  exact Segment.append_iff.mpr ⟨_, (fl.front_link hb hb0 h).segment, fl.rest_link hb h⟩

theorem list_link (hb0 : b ≠ 0) (h : pre ≠ []) (hadj : Adjacent b n (post.headD 0) → post.tail = []) :
    DoubleChain (s.link b n (pre.getLastD 0) (post.headD 0)).next (s.link b n (pre.getLastD 0) (post.headD 0)).prev 0 q
      s.freeList (pre ++ b :: if Adjacent b n (post.headD 0) then post.tail else post) := by
  rw [← List.singleton_append, ← List.append_assoc]
  exact DoubleChain.append_iff.mpr ⟨_, _, fl.front_link hb hb0 h, fl.rest_link_double hb h hadj⟩

end Link
end FreeList

-- A block of `e` bytes at `b` lies between the chunks `pre` and the chunks `post`, and is large enough for a header.
structure Between (s : State) (b : BitVec 64) (e : Nat) (pre post : List (BitVec 64)) : Prop where
  below   : ∀ c ∈ pre, c.toNat + s.extent c ≤ b.toNat
  above   : ∀ c ∈ post, b.toNat + e ≤ c.toNat
  large   : 24 ≤ e
  bounded : b.toNat + e ≤ 2 ^ 64

namespace Between

variable {e : Nat}

theorem disjoint (h : s.Between b e pre post) (fl : s.FreeList q (pre ++ post)) (hc : c ∈ pre ++ post) :
    Disjoint (region b e) (region c (s.extent c)) := by
  cases List.mem_append.mp hc
  case inl hc => exact (disjoint_region_of_le (h.below c hc) h.bounded).symm
  case inr hc' => exact disjoint_region_of_le (h.above c hc') (fl.bounded c hc)

theorem header_subset (h : s.Between b e pre post) : header b ⊆ region b e :=
  region_subset <| by simpa [sizeofFreeChunk] using h.large

theorem disjoint_header (h : s.Between b e pre post) (fl : s.FreeList q (pre ++ post)) (hc : c ∈ pre ++ post) :
    Disjoint (header b) (header c) :=
  (h.disjoint fl hc).mono h.header_subset State.header_subset

theorem locked (h : s.Between b e pre post) : s.locked.Between b e pre post :=
  ⟨h.below, h.above, h.large, h.bounded⟩

theorem not_gt (h : s.Between b e pre post) (hc : c ∈ pre) : ¬c > b := by
  have := h.below c hc
  bv_omega

theorem gt (h : s.Between b e pre post) (hc : c ∈ post) : c > b := by
  have := h.above c hc
  have := h.large
  bv_omega

end Between

theorem FreeList.of_changes {S : Set (BitVec 64)} (fl : s.FreeList q cs) (h : s.memory.Changes s'.memory S)
    (hd : ∀ c ∈ cs, Disjoint (header c) S) (hf : s'.freeList = s.freeList) : s'.FreeList q cs := by
  refine fl.of_sublist (.refl _) (fun c hc => numBytes_of_changes h (hd c hc)) ?_
  rw [hf]
  exact fl.list.congr (fun c hc => next_of_changes h (hd c hc)) (fun c hc => prev_of_changes h (hd c hc))

theorem FreeList.covered_of_changes {S : Set (BitVec 64)} (fl : s.FreeList q cs) (h : s.memory.Changes s'.memory S)
    (hd : ∀ c ∈ cs, Disjoint (header c) S) (hf : s'.freeList = s.freeList) : s'.covered = s.covered := by
  ext k
  rw [(fl.of_changes h hd hf).covered_iff, fl.covered_iff]
  refine exists_congr fun c => and_congr_right fun hc => ?_
  rw [bytes, numBytes_of_changes h (hd c hc)]
  rfl

section Clear

variable {e : Nat} (fl : s.FreeList q (pre ++ post)) (h : s.Between b e pre post) (hn : n.toNat ≤ e)

theorem clear_numBytes : (s.clear b n).numBytes b = n :=
  setNumBytes_numBytes

include h hn in
theorem changes_clear : s.memory.Changes (s.clear b n).memory (region b e) := by
  have h₁ : s.memory.Changes (s.memset b n).memory (region b e) := Changes.fill.mono <| region_subset <| by simpa using hn
  exact h₁.trans <| Changes.store.mono <| (word_subset (by decide)).trans h.header_subset

include fl h in
theorem disjoint_clear (hc : c ∈ pre ++ post) : Disjoint (header c) (region b e) :=
  (h.disjoint fl hc).symm.mono_left header_subset

-- The chunks of the list are not affected by clearing the block.
include fl h hn in
theorem FreeList.clear : (s.clear b n).FreeList q (pre ++ post) :=
  fl.of_changes (changes_clear h hn) (fun _ hc => disjoint_clear fl h hc) clear_freeList

include fl h hn in
theorem FreeList.covered_clear : (s.clear b n).covered = s.covered :=
  fl.covered_of_changes (changes_clear h hn) (fun _ hc => disjoint_clear fl h hc) clear_freeList

include fl h hn in
theorem Between.clear : (s.clear b n).Between b e pre post where
  below   := fun c hc => by
    rw [extent, numBytes_of_changes (changes_clear h hn) (disjoint_clear fl h (List.mem_append_left _ hc))]
    exact h.below c hc
  above   := h.above
  large   := h.large
  bounded := h.bounded

end Clear

section Covered

variable {e : Nat} {k : BitVec 64} (fl : s.FreeList q (pre ++ post)) (hb : s.Between b e pre post) (hn : n.toNat ≤ e)

include fl hb hn

-- The bytes of the chunks. The last chunk in front of the block is extended by the block if they are adjacent.
theorem bytes_link (hb0 : b ≠ 0) (hc : c ∈ pre ++ post) : (s.link b n (pre.getLastD 0) (post.headD 0)).bytes c =
    if c = pre.getLastD 0 ∧ c + s.numBytes c = b then s.bytes c ∪ region b n.toNat else s.bytes c := by
  rw [bytes, fl.numBytes_link (fun c hc => hb.disjoint_header fl hc) hc]
  split
  case isFalse => rfl
  case isTrue h =>
    have := fl.ne_null hc
    have := hb.bounded
    have := fl.bounded c hc
    have := s.numBytes_le_extent (c := c)
    have := h.right
    rw [region_add (by bv_omega), h.right]
    rfl

-- The block itself is extended by an adjacent chunk behind it.
theorem bytes_link_self (hb0 : b ≠ 0) (hs : s.numBytes b = n) :
    (s.link b n (pre.getLastD 0) (post.headD 0)).bytes b =
    if Adjacent b n (post.headD 0) then region b n.toNat ∪ s.bytes (post.headD 0) else region b n.toNat := by
  rw [bytes, FreeList.numBytes_link_self (fun c hc => hb.disjoint_header fl hc), hs]
  split
  case isFalse => rfl
  case isTrue h =>
    have hd : post.headD 0 ∈ pre ++ post := FreeList.headD_mem h.left
    have := hb.bounded
    have := fl.bounded _ hd
    have := s.numBytes_le_extent (c := post.headD 0)
    have ⟨_, _⟩ := h
    rw [region_add (by bv_omega), h.right]
    rfl

theorem covered_link (hb0 : b ≠ 0) (hs : s.numBytes b = n) (hp : pre ≠ []) :
    (s.link b n (pre.getLastD 0) (post.headD 0)).covered = s.covered ∪ region b n.toNat := by
  have hchain := fl.chain_link (n := n) (fun c hc => hb.disjoint_header fl hc) hb0 hp
  have hbytes {c : BitVec 64} (hc : c ∈ pre ++ post) := bytes_link (n := n) fl hb hn hb0 hc
  have hself := bytes_link_self fl hb hn hb0 hs
  have hf := s.link_freeList (b := b) (n := n) (a := pre.getLastD 0) (d := post.headD 0)
  generalize s.link b n (pre.getLastD 0) (post.headD 0) = s' at *
  have hlast := fl.not_mem_post hp
  have hpost {c : BitVec 64} (hc : c ∈ post) : s'.bytes c = s.bytes c := by
    have hne : ¬(c = pre.getLastD 0 ∧ c + s.numBytes c = b) := fun h => hlast (h.left ▸ hc)
    rw [hbytes (List.mem_append_right _ hc), if_neg hne]
  ext k
  have hs' : k ∈ s'.covered ↔
      ∃ c ∈ pre ++ b :: (if Adjacent b n (post.headD 0) then post.tail else post), k ∈ s'.bytes c := by
    simp only [covered, Listed, hf, hchain.mem_iff, Set.mem_ofPred_eq]
  rw [hs', Set.mem_union, fl.covered_iff]
  constructor
  case mp =>
    rintro ⟨c, hc, hk⟩
    rcases List.mem_append.mp hc with hc | hc
    case inl =>
      have hc := List.mem_append_left post hc
      rw [hbytes hc] at hk
      split at hk
      case isTrue  => exact hk.imp (fun hk => ⟨c, hc, hk⟩) id
      case isFalse => exact .inl ⟨c, hc, hk⟩
    case inr =>
      rcases List.mem_cons.mp hc with hc | hc
      case inl =>
        subst hc
        rw [hself] at hk
        split at hk
        case isFalse => exact .inr hk
        case isTrue h => exact hk.symm.imp (fun hk => ⟨_, FreeList.headD_mem h.left, hk⟩) id
      case inr =>
        have hc : c ∈ post := by
          split at hc
          case isTrue  => exact List.mem_of_mem_tail hc
          case isFalse => exact hc
        rw [hpost hc] at hk
        exact .inl ⟨c, List.mem_append_right _ hc, hk⟩
  case mpr =>
    intro hk
    have hkb (hk : k ∈ region b n.toNat) : k ∈ s'.bytes b := by
      rw [hself]
      split
      case isTrue  => exact .inl hk
      case isFalse => exact hk
    cases hk
    case inr hk => exact ⟨b, by simp, hkb hk⟩
    case inl hk =>
      obtain ⟨c, hc, hk⟩ := hk
      cases List.mem_append.mp hc
      case inl hc' =>
        refine ⟨c, List.mem_append_left _ hc', ?_⟩
        rw [hbytes hc]
        split
        case isTrue  => exact .inl hk
        case isFalse => exact hk
      case inr hc' =>
        by_cases h : Adjacent b n (post.headD 0)
        case neg =>
          refine ⟨c, List.mem_append_right _ <| List.mem_cons_of_mem _ ?_, by rwa [hpost hc']⟩
          rwa [if_neg h]
        case pos =>
          rw [FreeList.eq_cons_of_adjacent h] at hc'
          cases List.mem_cons.mp hc'
          case inl he => exact ⟨b, by simp, by rw [hself, if_pos h, ← he]; exact .inr hk⟩
          case inr ht =>
            refine ⟨c, List.mem_append_right _ <| List.mem_cons_of_mem _ ?_, ?_⟩
            case refine_1 => rwa [if_pos h]
            case refine_2 => rwa [hpost (List.mem_of_mem_tail ht)]

end Covered

-- What `free` results in, if there are chunks in front of the block.
theorem FreeList.free_eq {e : Nat} (fl : s.FreeList q (pre ++ post)) (hl : s.Unlocked) (hb : s.Between b e pre post)
    (hn : (s.blockSize (b + 8)).toNat ≤ e) (hf : s.freeList ≠ 0) (hfuel : pre.length < fuel) :
    free fuel s (b + 8) = some ((s.cleared (b + 8)).locked.link b (s.blockSize (b + 8)) (pre.getLastD 0)
      (post.headD 0)).release := by
  cases fuel
  case zero => omega
  case succ =>
    have hm : b + 8 - 8 = b := BitVec.add_sub_cancel b 8
    have hc : (s.cleared (b + 8)).FreeList q (pre ++ post) := by
      rw [cleared, sizeofUnfreeChunk, hm]
      exact fl.clear hb hn
    have hp := findPosition_eq (x := 0) hc.locked.chain (fun _ => hb.not_gt) (fun _ => hb.gt) hfuel
    rw [locked_freeList, cleared_freeList] at hp
    rw [free_of_unlocked hl, if_neg hf, locked_cleared, hm, hp, Option.map_some]

end State
end Alloc
