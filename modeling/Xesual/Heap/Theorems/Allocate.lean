import Xesual.Heap.FreeList

namespace Alloc

open Linked Memory

section FindChunk

variable {s : State} {actualSize p x : BitVec 64} {fuel : Nat} {cs : List (BitVec 64)}

-- The loop finds the first chunk of the list with enough bytes.
theorem findChunk_spec (h : Chain s.next 0 p cs) (hf : findChunk s actualSize fuel p = some x) :
    (x = 0 ∧ ∀ c ∈ cs, s.numBytes c < actualSize) ∨
    (∃ pre post, cs = pre ++ x :: post ∧ (∀ c ∈ pre, s.numBytes c < actualSize) ∧ actualSize ≤ s.numBytes x) := by
  induction fuel generalizing p cs
  case zero => simp [findChunk] at hf
  case succ ih =>
    cases cs
    case nil =>
      simp only [Chain, Segment.nil_iff] at h
      simp only [findChunk, h, ↓reduceIte, Option.some.injEq] at hf
      exact .inl ⟨hf.symm, by simp⟩
    case cons c cs =>
      have ⟨hp, hc, h⟩ := h
      subst hp
      simp only [findChunk, hc, ↓reduceIte] at hf
      split at hf
      case isTrue hn =>
        cases hf
        exact .inr ⟨[], cs, by simpa using hn⟩
      case isFalse hn =>
        replace hn : s.numBytes p < actualSize := BitVec.not_le.mp hn
        cases ih h hf
        case inl h => exact .inl ⟨h.left, by simpa using ⟨hn, h.right⟩⟩
        case inr h =>
          have ⟨pre, post, hcs, hpre, hx⟩ := h
          exact .inr ⟨p :: pre, post, by simp [hcs], by simpa using ⟨hn, hpre⟩, hx⟩

theorem findChunk_isSome (h : Chain s.next 0 p cs) (hl : cs.length < fuel) :
    (findChunk s actualSize fuel p).isSome := by
  induction fuel generalizing p cs
  case zero => omega
  case succ ih =>
    cases cs
    case nil =>
      simp only [Chain, Segment.nil_iff] at h
      simp [findChunk, h]
    case cons c cs =>
      have ⟨hp, hc, h⟩ := h
      subst hp
      simp only [findChunk, hc, ↓reduceIte]
      split
      case isTrue  => rfl
      case isFalse => exact ih h (by simpa using hl)

end FindChunk

namespace State

variable {s s' : State} {a c d p q n : BitVec 64} {cs pre post : List (BitVec 64)}

-- The words that are changed by unlinking the chunk `c`.
def links (s : State) (c : BitVec 64) : Set (BitVec 64) :=
  { k | s.prev c ≠ 0 ∧ k ∈ region (s.prev c) 8 } ∪ { k | s.next c ≠ 0 ∧ k ∈ region (s.next c + 8) 8 }

section Unlink

-- The neighbours of `c` do not overlap with it.
variable (hp : s.prev c ≠ 0 → Disjoint (header c) (region (s.prev c) 8))
variable (hn : s.next c ≠ 0 → Disjoint (header c) (region (s.next c + 8) 8))

theorem changes_unlinkPrev :
    s.memory.Changes (s.unlinkPrev c).memory { k | s.prev c ≠ 0 ∧ k ∈ region (s.prev c) 8 } := by
  unfold unlinkPrev
  split
  case isTrue h  => exact Changes.store.mono fun _ hk => ⟨h, hk⟩
  case isFalse h => exact .refl

theorem changes_unlinkNext :
    s.memory.Changes (s.unlinkNext c).memory { k | s.next c ≠ 0 ∧ k ∈ region (s.next c + 8) 8 } := by
  unfold unlinkNext
  split
  case isTrue h  => exact Changes.store.mono fun _ hk => ⟨h, hk⟩
  case isFalse h => exact .refl

include hp in
theorem disjoint_unlinkPrev : Disjoint (header c) { k | s.prev c ≠ 0 ∧ k ∈ region (s.prev c) 8 } :=
  Set.disjoint_left.mpr fun _ hk h => Set.disjoint_left.mp (hp h.left) hk h.right

include hp in
theorem unlinkPrev_next : (s.unlinkPrev c).next c = s.next c :=
  next_of_changes changes_unlinkPrev (disjoint_unlinkPrev hp)

include hp in
theorem unlinkPrev_prev : (s.unlinkPrev c).prev c = s.prev c :=
  prev_of_changes changes_unlinkPrev (disjoint_unlinkPrev hp)

theorem unlinkPrev_freeList : (s.unlinkPrev c).freeList = s.freeList := by
  unfold unlinkPrev
  split <;> rfl

theorem unlinkNext_freeList : (s.unlinkNext c).freeList = s.freeList := by
  unfold unlinkNext
  split <;> rfl

theorem unlinkHead_memory : (s.unlinkHead c).memory = s.memory := by
  unfold unlinkHead
  split
  case isTrue  => exact setFreeList_memory
  case isFalse => rfl

theorem unlink_memory : (s.unlink c).memory = ((s.unlinkPrev c).unlinkNext c).memory :=
  unlinkHead_memory

include hp in
theorem changes_unlink : s.memory.Changes (s.unlink c).memory (s.links c) := by
  have h := (s.unlinkPrev c).changes_unlinkNext (c := c)
  rw [unlinkPrev_next hp] at h
  rw [unlink_memory]
  exact changes_unlinkPrev.union h

include hp hn in
theorem disjoint_links : Disjoint (header c) (s.links c) := by
  refine Set.disjoint_union_right.mpr ⟨disjoint_unlinkPrev hp, ?_⟩
  exact Set.disjoint_left.mpr fun _ hk h => Set.disjoint_left.mp (hn h.left) hk h.right

include hp hn in
theorem unlink_freeList : (s.unlink c).freeList = if c = s.freeList then s.next c else s.freeList := by
  have h : ((s.unlinkPrev c).unlinkNext c).freeList = s.freeList := by
    rw [unlinkNext_freeList, unlinkPrev_freeList]
  have hc : ((s.unlinkPrev c).unlinkNext c).next c = s.next c := by
    have hc := next_of_changes (changes_unlink hp) (disjoint_links hp hn)
    simpa only [next, unlink_memory] using hc
  rw [unlink, unlinkHead, h]
  split
  case isTrue  => exact hc
  case isFalse => exact h

include hp in
theorem unlink_prev (h : s.next c ≠ 0) : (s.unlink c).prev (s.next c) = s.prev c := by
  rw [prev, unlink_memory, unlinkNext, unlinkPrev_next hp, unlinkPrev_prev hp, if_pos h]
  exact load_store

include hp in
theorem unlink_next (h : s.prev c ≠ 0)
    (hd : s.next c ≠ 0 → Disjoint (region (s.prev c) 8) (region (s.next c + 8) 8)) :
    (s.unlink c).next (s.prev c) = s.next c := by
  have hm : ((s.unlinkPrev c).unlinkNext c).memory.load (s.prev c) = (s.unlinkPrev c).memory.load (s.prev c) := by
    refine changes_unlinkNext.load <| Set.disjoint_left.mpr fun k hk h => ?_
    rw [unlinkPrev_next hp] at h
    exact Set.disjoint_left.mp (hd h.left) hk h.right
  rw [next, unlink_memory, hm, unlinkPrev, if_pos h]
  exact load_store

end Unlink

-- The pointer `q` is null, or the word at `q` does not belong to a header of the list.
def Outside (q : BitVec 64) (cs : List (BitVec 64)) : Prop :=
  q ≠ 0 → ∀ c ∈ cs, Disjoint (header c) (region q 8)

namespace FreeList

theorem changed (fl : s.FreeList q cs) (hc : c ∈ cs) (hd : d ∈ cs) (h : c ≠ d) :
    Disjoint (header c) (region d 8) :=
  (fl.disjoint_header hc hd h).mono_right next_subset

-- The neighbours of a chunk.
theorem next_eq (fl : s.FreeList q (pre ++ c :: post)) : DoubleChain s.next s.prev 0 c (s.next c) post := by
  have ⟨_, _, _, h⟩ := DoubleChain.append_iff.mp fl.list
  exact (DoubleChain.cons_iff.mp h).right.right.right

theorem prev_eq (fl : s.FreeList q (pre ++ a :: c :: post)) : s.prev c = a := by
  exact (DoubleChain.cons_iff.mp fl.next_eq).right.right.left

theorem prev_head (fl : s.FreeList q (c :: post)) : s.prev c = q :=
  (DoubleChain.cons_iff.mp fl.list).right.right.left

theorem disjoint_next (fl : s.FreeList q cs) (hc : c ∈ cs) (h : s.next c ≠ 0) :
    s.next c ∈ cs ∧ Disjoint (header c) (header (s.next c)) := by
  have ⟨pre, post, hcs⟩ := List.append_of_mem hc
  subst hcs
  have hm := fl.next_eq.head_mem h
  refine ⟨by simp [hm], fl.disjoint_header hc (by simp [hm]) fun he => ?_⟩
  have hn := List.nodup_cons.mp (List.nodup_middle.mp fl.nodup) |>.left
  rw [← he] at hm
  exact hn (List.mem_append_right _ hm)

-- The `prev` field of a chunk leads to the chunk in front of it, or to `q`.
theorem prev_cases (fl : s.FreeList q (pre ++ c :: post)) :
    (pre = [] ∧ s.prev c = q) ∨ ∃ pre', pre = pre' ++ [s.prev c] := by
  cases List.eq_nil_or_concat pre
  case inl hp =>
    subst hp
    exact .inl ⟨rfl, fl.prev_head⟩
  case inr hp =>
    have ⟨pre', a, hp⟩ := hp
    rw [List.concat_eq_append] at hp
    subst hp
    rw [List.append_assoc, List.singleton_append] at fl
    exact .inr ⟨pre', by rw [fl.prev_eq]⟩

theorem disjoint_prev_of_ne (fl : s.FreeList q (pre ++ c :: post)) (hq : Outside q (pre ++ c :: post))
    (hd : d ∈ pre ++ c :: post) (hne : d ≠ s.prev c) (h : s.prev c ≠ 0) :
    Disjoint (header d) (region (s.prev c) 8) := by
  cases fl.prev_cases
  case inl hp =>
    rw [hp.right] at h ⊢
    exact hq h d hd
  case inr hp =>
    have ⟨_, hp⟩ := hp
    exact fl.changed hd (by rw [hp]; simp) hne

theorem disjoint_prev (fl : s.FreeList q (pre ++ c :: post)) (hq : Outside q (pre ++ c :: post))
    (h : s.prev c ≠ 0) : Disjoint (header c) (region (s.prev c) 8) := by
  cases fl.prev_cases
  case inl hp =>
    rw [hp.right] at h ⊢
    exact hq h c (by simp)
  case inr hp =>
    have ⟨_, hp⟩ := hp
    refine fl.changed (by simp) (by rw [hp]; simp) fun he => ?_
    have hn := List.nodup_cons.mp (List.nodup_middle.mp fl.nodup) |>.left
    rw [hp, ← he] at hn
    simp at hn

-- A free list that results from another one by removing some of its chunks, without changing the sizes of the
-- other chunks.
theorem of_sublist {q' : BitVec 64} {cs' : List (BitVec 64)} (fl : s.FreeList q cs) (h : cs'.Sublist cs)
    (hn : ∀ c ∈ cs', s'.numBytes c = s.numBytes c)
    (list : DoubleChain s'.next s'.prev 0 q' s'.freeList cs') : s'.FreeList q' cs' where
  list    := list
  ordered := (fl.ordered.sublist h).imp_of_mem fun hc _ => by rw [extent, extent, hn _ hc]; exact id
  bounded := fun c hc => by rw [extent, hn c hc]; exact fl.bounded c (h.subset hc)

section Unlink

variable (fl : s.FreeList q (pre ++ c :: post)) (hq : Outside q (pre ++ c :: post))

include fl hq

theorem changes_unlink : s.memory.Changes (s.unlink c).memory (s.links c) :=
  State.changes_unlink (fl.disjoint_prev hq)

theorem disjoint_links : Disjoint (header c) (s.links c) := by
  refine State.disjoint_links (fl.disjoint_prev hq) fun h => ?_
  exact (fl.disjoint_next (by simp) h).right.mono_right <| word_subset (by decide)

theorem unlink_freeList : (s.unlink c).freeList = if c = s.freeList then s.next c else s.freeList := by
  refine State.unlink_freeList (fl.disjoint_prev hq) fun h => ?_
  exact (fl.disjoint_next (by simp) h).right.mono_right <| word_subset (by decide)

-- A word of another chunk is not changed, unless it is one of the two links to `c`.
theorem disjoint_word {i : BitVec 64} (hd : d ∈ pre ++ post) (hi : i = 0 ∨ i = 8 ∨ i = 16)
    (hp : d = s.prev c → i ≠ 0) (hn : d = s.next c → i ≠ 8) : Disjoint (region (d + i) 8) (s.links c) := by
  have hw : region (d + i) 8 ⊆ header d := word_subset <| by
    rcases hi with hi | hi | hi <;> rw [hi] <;> decide
  have hd : d ∈ pre ++ c :: post := by
    simp only [List.mem_append, List.mem_cons] at hd ⊢
    exact hd.imp_right .inr
  refine Set.disjoint_union_right.mpr ⟨?prev, ?next⟩
  case prev =>
    refine Set.disjoint_left.mpr fun k hk h => ?_
    refine Set.disjoint_left.mp ?_ hk h.right
    by_cases he : d = s.prev c
    case pos =>
      have hi := hi.resolve_left (hp he)
      rw [← he]
      apply disjoint_region
      case h  => rcases hi with hi | hi <;> rw [hi] <;> bv_omega
      case h' => rcases hi with hi | hi <;> rw [hi] <;> bv_omega
    case neg => exact (fl.disjoint_prev_of_ne hq hd he h.left).mono_left hw
  case next =>
    refine Set.disjoint_left.mpr fun k hk h => ?_
    refine Set.disjoint_left.mp ?_ hk h.right
    by_cases he : d = s.next c
    case pos =>
      rw [← he]
      apply disjoint_words
      case h  => rcases hi with hi | hi | hi <;> first | exact absurd hi (hn he) | (rw [hi]; decide)
      case h' => rcases hi with hi | hi | hi <;> first | exact absurd hi (hn he) | (rw [hi]; decide)
    case neg =>
      have hm := (fl.disjoint_next (by simp) h.left).left
      exact (fl.disjoint_header hd hm he).mono hw (word_subset (by decide))

theorem unlink_next_of_ne (hd : d ∈ pre ++ post) (h : d ≠ s.prev c) : (s.unlink c).next d = s.next d := by
  have hw := fl.disjoint_word hq hd (.inl rfl) (fun he => absurd he h) (fun _ => by decide)
  exact (fl.changes_unlink hq).load (by simpa using hw)

theorem unlink_prev_of_ne (hd : d ∈ pre ++ post) (h : d ≠ s.next c) : (s.unlink c).prev d = s.prev d :=
  (fl.changes_unlink hq).load <|
    fl.disjoint_word hq hd (.inr <| .inl rfl) (fun _ => by decide) (fun he => absurd he h)

theorem unlink_numBytes (hd : d ∈ pre ++ post) : (s.unlink c).numBytes d = s.numBytes d :=
  (fl.changes_unlink hq).load <|
    fl.disjoint_word hq hd (.inr <| .inr rfl) (fun _ => by decide) (fun _ => by decide)

omit fl hq in
theorem not_mem_of_outside (fl : s.FreeList q cs) (hq : Outside q cs) : q ∉ cs := by
  intro hm
  have hd := hq (fl.ne_null hm) q hm
  have h : q ∈ region q 8 := self_mem_region (by decide)
  exact Set.disjoint_left.mp hd (next_subset h) h

-- The chunks behind `c`, where `a` stands in front of `c`.
theorem unlink_post (h : s.prev c ∉ post) :
    DoubleChain (s.unlink c).next (s.unlink c).prev 0 (s.prev c) (s.next c) post := by
  have hd := List.nodup_cons.mp (List.nodup_middle.mp fl.nodup)
  refine fl.next_eq.redirect hd.right.of_append_right ?_ ?_ ?_
  case refine_1 =>
    intro x hx
    exact fl.unlink_next_of_ne hq (by simp [hx]) <| ne_of_mem_of_not_mem hx h
  case refine_2 =>
    intro x hx hne
    exact fl.unlink_prev_of_ne hq (by simp [hx]) hne
  case refine_3 =>
    intro hn
    exact State.unlink_prev (fl.disjoint_prev hq) hn

theorem unlink : (s.unlink c).FreeList q (pre ++ post) := by
  refine fl.of_sublist ?_ (fun d hd => fl.unlink_numBytes hq hd) ?_
  case refine_1 => exact (List.sublist_cons_self ..).append_left pre
  have hd := List.nodup_cons.mp (List.nodup_middle.mp fl.nodup)
  rw [fl.unlink_freeList hq]
  cases fl.prev_cases
  case inl hp =>
    have ⟨hp, hc⟩ := hp
    subst hp
    have hf : c = s.freeList := (DoubleChain.cons_iff.mp fl.list).left.symm
    have hq' := fl.not_mem_of_outside hq
    rw [if_pos hf, ← hc]
    exact fl.unlink_post hq fun hm => hq' (by simp [← hc, hm])
  case inr hp =>
    have ⟨pre', hp⟩ := hp
    have hm := List.disjoint_of_nodup_append hd.right
    have hf : s.freeList ∈ pre := fl.list.head_mem_of_append (by simp [hp])
    have hne : c ≠ s.freeList := fun he => hd.left <| List.mem_append_left _ (he ▸ hf)
    have ha : s.prev c ∈ pre := by rw [hp]; simp
    have hnext (x : BitVec 64) (hx : x ∈ pre) : x ≠ s.next c := by
      intro he
      exact hm hx <| he ▸ fl.next_eq.head_mem (he ▸ fl.ne_null (List.mem_append_left _ hx))
    have hlist := fl.unlink_post hq (hm ha)
    have hnext' : (s.unlink c).next (s.prev c) = s.next c := by
      refine State.unlink_next (fl.disjoint_prev hq) (fl.ne_null <| List.mem_append_left _ ha) fun h => ?_
      have hc := (fl.disjoint_next (by simp) h).left
      have hd := fl.disjoint_header (List.mem_append_left _ ha) hc (hnext _ ha)
      exact hd.mono next_subset (word_subset (by decide))
    rw [← hnext'] at hlist
    have hcs : pre ++ c :: post = pre' ++ s.prev c :: c :: post := by rw [hp]; simp
    have hcs' : pre ++ post = pre' ++ s.prev c :: post := by rw [hp]; simp
    rw [if_neg hne, hcs']
    refine (hcs ▸ fl.list).splice ?_ ?_ hlist
    case refine_1 =>
      intro x hx
      have hx' : x ∈ pre := by rw [hp]; simp [hx]
      refine fl.unlink_next_of_ne hq (List.mem_append_left _ hx') fun he => ?_
      have hpre : pre.Nodup := hd.right.of_append_left
      rw [hp, List.nodup_append] at hpre
      exact hpre.right.right x hx _ (by simp) he
    case refine_2 =>
      intro x hx
      rw [← hp] at hx
      exact fl.unlink_prev_of_ne hq (List.mem_append_left _ hx) (hnext x hx)

end Unlink

section SetNumBytes

variable {v : BitVec 64} (fl : s.FreeList q cs) (hc : c ∈ cs)

include fl hc

theorem disjoint_numBytes (hd : d ∈ cs) (h : d ≠ c) : Disjoint (header d) (region (c + 16) 8) :=
  (fl.disjoint_header hd hc h).mono_right <| word_subset (by decide)

theorem setNumBytes_next_mem (hd : d ∈ cs) : (s.setNumBytes c v).next d = s.next d := by
  by_cases h : d = c
  case pos => rw [h, setNumBytes_next]
  case neg => exact next_of_changes Changes.store (fl.disjoint_numBytes hc hd h)

theorem setNumBytes_prev_mem (hd : d ∈ cs) : (s.setNumBytes c v).prev d = s.prev d := by
  by_cases h : d = c
  case pos => rw [h, setNumBytes_prev]
  case neg => exact prev_of_changes Changes.store (fl.disjoint_numBytes hc hd h)

theorem setNumBytes_numBytes_of_ne (hd : d ∈ cs) (h : d ≠ c) : (s.setNumBytes c v).numBytes d = s.numBytes d :=
  numBytes_of_changes Changes.store (fl.disjoint_numBytes hc hd h)

theorem setNumBytes_extent (hv : v ≤ s.numBytes c) (hd : d ∈ cs) : (s.setNumBytes c v).extent d ≤ s.extent d := by
  by_cases h : d = c
  case pos =>
    have hv : v.toNat ≤ (s.numBytes c).toNat := hv
    simp only [extent, h, setNumBytes_numBytes]
    omega
  case neg => rw [extent, extent, fl.setNumBytes_numBytes_of_ne hc hd h]

-- Making a chunk smaller.
theorem setNumBytes (hv : v ≤ s.numBytes c) : (s.setNumBytes c v).FreeList q cs where
  list := fl.list.congr (fun _ hd => fl.setNumBytes_next_mem hc hd) (fun _ hd => fl.setNumBytes_prev_mem hc hd)
  ordered := by
    refine fl.ordered.imp_of_mem ?_
    intro d _ hd _ h
    have := fl.setNumBytes_extent hc hv hd
    omega
  bounded := by
    intro d hd
    have := fl.setNumBytes_extent hc hv hd
    have := fl.bounded d hd
    omega

end SetNumBytes
end FreeList

section Take

theorem take_cases (h : a ≤ s.numBytes c) :
    (a < s.numBytes c ∧ s.take c a = s.setNumBytes c (s.numBytes c - a)) ∨
    (a = s.numBytes c ∧ s.take c a = (s.setNumBytes c 0).unlink c) := by
  by_cases ha : a < s.numBytes c
  case pos =>
    have h0 : s.numBytes c - a ≠ 0 := by bv_omega
    refine .inl ⟨ha, ?_⟩
    simp only [State.take, setNumBytes_numBytes]
    rw [if_neg h0]
  case neg =>
    have he : a = s.numBytes c := BitVec.le_antisymm h (BitVec.not_lt.mp ha)
    exact .inr ⟨he, by simp [State.take, he]⟩

-- The chunks that are left, after `a` bytes have been taken from the chunk `c`.
def remainder (s : State) (c a : BitVec 64) : List (BitVec 64) :=
  if a < s.numBytes c then [c] else []

-- The bytes that are changed by taking `a` bytes from the chunk `c`.
def taken (s : State) (c a : BitVec 64) : Set (BitVec 64) :=
  region (c + 16) 8 ∪ { k | a = s.numBytes c ∧ k ∈ s.links c }

namespace FreeList

variable (fl : s.FreeList q (pre ++ c :: post)) (hq : Outside q (pre ++ c :: post)) (ha : a ≤ s.numBytes c)

include fl

-- The chunk that is unlinked has no bytes left.
theorem setNumBytes_zero : (s.setNumBytes c 0).FreeList q (pre ++ c :: post) :=
  fl.setNumBytes (by simp) (by bv_omega)

theorem mem_of_mem_rest (hd : d ∈ pre ++ post) : d ∈ pre ++ c :: post ∧ d ≠ c := by
  have hc := List.nodup_cons.mp (List.nodup_middle.mp fl.nodup) |>.left
  refine ⟨?_, ne_of_mem_of_not_mem hd hc⟩
  simp only [List.mem_append, List.mem_cons] at hd ⊢
  exact hd.imp_right .inr

include hq ha

theorem take : (s.take c a).FreeList q (pre ++ s.remainder c a ++ post) := by
  cases take_cases ha
  case inl h =>
    rw [h.right, remainder, if_pos h.left, List.append_assoc, List.singleton_append]
    exact fl.setNumBytes (by simp) (by bv_omega)
  case inr h =>
    rw [h.right, remainder, if_neg (by simp [h.left]), List.append_nil]
    exact fl.setNumBytes_zero.unlink hq

theorem take_numBytes_self : (s.take c a).numBytes c = s.numBytes c - a := by
  cases take_cases ha
  case inl h => rw [h.right, setNumBytes_numBytes]
  case inr h =>
    have fl' := fl.setNumBytes_zero
    rw [h.right, numBytes_of_changes (fl'.changes_unlink hq) (fl'.disjoint_links hq), setNumBytes_numBytes, h.left]
    exact (BitVec.sub_self _).symm

theorem take_numBytes (hd : d ∈ pre ++ post) : (s.take c a).numBytes d = s.numBytes d := by
  have ⟨hm, hdc⟩ := fl.mem_of_mem_rest hd
  cases take_cases ha
  case inl h => rw [h.right, fl.setNumBytes_numBytes_of_ne (by simp) hm hdc]
  case inr h =>
    rw [h.right, fl.setNumBytes_zero.unlink_numBytes hq hd, fl.setNumBytes_numBytes_of_ne (by simp) hm hdc]

end FreeList
end Take

section Requests

variable {fuel : Nat} {size : BitVec 64}

theorem findChunk_locked : findChunk s.locked a fuel p = findChunk s a fuel p := by
  induction fuel generalizing p
  case zero => rfl
  case succ ih =>
    simp only [findChunk, ih]
    rfl

theorem allocate_of_unlocked (h : s.Unlocked) : allocate (fuel + 1) s size =
    (findChunk s (size + 8) (fuel + 1) s.freeList).map fun c =>
      if c = 0 then (s.locked, 0)
      else ((s.locked.take c (size + 8)).release, (s.locked.take c (size + 8)).returnAddress c) := by
  have hl : s.acquire (fuel + 1) = some s.locked := acquire_eq_some_iff.mpr ⟨h, Nat.succ_pos _, rfl⟩
  have hf : findChunk s.locked (size + sizeofUnfreeChunk) (fuel + 1) s.locked.freeList =
      findChunk s (size + 8) (fuel + 1) s.freeList := findChunk_locked
  simp only [allocate, hl, hf, Option.bind_eq_bind, Option.bind_some]
  cases findChunk s (size + 8) (fuel + 1) s.freeList
  case none => rfl
  case some c =>
    rw [Option.bind_some, Option.map_some]
    split
    case isTrue  => rfl
    case isFalse =>
      rw [show size + sizeofUnfreeChunk = size + 8 from rfl]
      generalize s.locked.take c (size + 8) = t
      rfl

theorem allocate_of_locked (h : ¬s.Unlocked) : allocate fuel s size = none := by
  have hl : s.acquire fuel = none := by
    refine Option.eq_none_iff_forall_ne_some.mpr fun s' hs => ?_
    exact h (acquire_eq_some_iff.mp hs).left
  unfold allocate
  rw [hl]
  rfl

namespace FreeList

theorem allocate_cases (fl : s.FreeList q cs) (hq : Outside q cs) (h : allocate fuel s size = some (s', p)) :
    (p = 0 ∧ s' = s.locked ∧ ∀ c ∈ cs, s.numBytes c < size + 8) ∨
    (∃ pre c post, cs = pre ++ c :: post ∧ (∀ d ∈ pre, s.numBytes d < size + 8) ∧ size + 8 ≤ s.numBytes c ∧
      s' = (s.locked.take c (size + 8)).release ∧ p = c + (s.numBytes c - (size + 8)) + 8) := by
  by_cases hl : s.Unlocked
  case neg => simp [allocate_of_locked hl] at h
  cases fuel
  case zero => simp [allocate, acquire, Alloc.acquire] at h
  case succ =>
    rw [allocate_of_unlocked hl] at h
    obtain ⟨x, hf, h⟩ := Option.map_eq_some_iff.mp h
    cases findChunk_spec fl.chain hf
    case inl hx =>
      simp only [hx.left, ↓reduceIte, Prod.mk.injEq] at h
      exact .inl ⟨h.right.symm, h.left.symm, hx.right⟩
    case inr hx =>
      obtain ⟨pre, post, hcs, hpre, hle⟩ := hx
      subst hcs
      rw [if_neg (fl.ne_null (by simp)), Prod.mk.injEq] at h
      refine .inr ⟨pre, x, post, rfl, hpre, hle, h.left.symm, ?_⟩
      rw [← h.right, returnAddress, fl.locked.take_numBytes_self hq hle, locked_numBytes, sizeofUnfreeChunk]

theorem allocate_isSome (fl : s.FreeList q cs) (hl : s.Unlocked) (hf : cs.length < fuel) :
    (allocate fuel s size).isSome := by
  cases fuel
  case zero => omega
  case succ =>
    rw [allocate_of_unlocked hl, Option.isSome_map]
    exact findChunk_isSome fl.chain hf

-- The list of chunks after taking bytes from one of them.
theorem chunks_take (fl : s.FreeList q (pre ++ c :: post)) (hq : Outside q (pre ++ c :: post))
    (ha : a ≤ s.numBytes c) : (s.take c a).Chunks <|
      pre.map s.chunk ++
      (if (s.numBytes c).toNat = a.toNat then [] else [⟨c, (s.numBytes c).toNat - a.toNat⟩]) ++
      post.map s.chunk := by
  refine ⟨_, (fl.take hq ha).chain, ?_⟩
  have hrest : (s.remainder c a).map (s.take c a).chunk =
      if (s.numBytes c).toNat = a.toNat then [] else [⟨c, (s.numBytes c).toNat - a.toNat⟩] := by
    by_cases h : a < s.numBytes c
    case pos =>
      have hs : (s.numBytes c - a).toNat = (s.numBytes c).toNat - a.toNat := BitVec.toNat_sub_of_le ha
      rw [remainder, if_pos h, if_neg (by bv_omega), List.map_singleton, chunk, fl.take_numBytes_self hq ha, hs]
    case neg => rw [remainder, if_neg h, if_pos (by bv_omega), List.map_nil]
  have hmap {ds : List (BitVec 64)} (hd : ds ⊆ pre ++ post) :
      ds.map (s.take c a).chunk = ds.map s.chunk :=
    List.map_congr_left fun d h => by rw [chunk, chunk, fl.take_numBytes hq ha (hd h)]
  rw [List.map_append, List.map_append, hrest, hmap (List.subset_append_left ..), hmap (List.subset_append_right ..)]

end FreeList
end Requests
end State
end Alloc
