import Xesual.PhysicalMemory.FreeList

namespace PhysicalMemoryManagement

open Function Linked

section FindChunk

variable {s : State} {numPages fuel p x : Nat} {cs : List Nat}

-- The loop finds the first chunk of the list with enough pages.
theorem findChunk_spec (h : Chain s.next 0 p cs) (hf : findChunk s numPages fuel p = some x) :
    (x = 0 ∧ ∀ c ∈ cs, s.numPages c < numPages) ∨
    (∃ pre post, cs = pre ++ x :: post ∧ (∀ c ∈ pre, s.numPages c < numPages) ∧
      numPages ≤ s.numPages x) := by
  induction fuel generalizing p cs
  case zero => simp [findChunk] at hf
  case succ ih =>
    cases cs
    case nil =>
      simp only [Chain, Segment.nil_iff] at h
      simp only [findChunk, h, ↓reduceIte, Option.some.injEq] at hf
      exact .inl ⟨hf.symm, by simp⟩
    case cons c cs =>
      have ⟨hp, hc, h⟩ := h
      subst hp
      simp only [findChunk, hc, ↓reduceIte] at hf
      split at hf
      case isTrue hn =>
        cases hf
        exact .inr ⟨[], cs, by simpa using hn⟩
      case isFalse hn =>
        replace hn : s.numPages p < numPages := by omega
        cases ih h hf
        case inl h => exact .inl ⟨h.left, by simpa using ⟨hn, h.right⟩⟩
        case inr h =>
          have ⟨pre, post, hcs, hpre, hx⟩ := h
          exact .inr ⟨p :: pre, post, by simp [hcs], by simpa using ⟨hn, hpre⟩, hx⟩

theorem findChunk_isSome (h : Chain s.next 0 p cs) (hl : cs.length < fuel) :
    (findChunk s numPages fuel p).isSome := by
  induction fuel generalizing p cs
  case zero => omega
  case succ ih =>
    cases cs
    case nil =>
      simp only [Chain, Segment.nil_iff] at h
      simp [findChunk, h]
    case cons c cs =>
      have ⟨hp, hc, h⟩ := h
      subst hp
      simp only [findChunk, hc, ↓reduceIte]
      split
      case isTrue  => rfl
      case isFalse => exact ih h (by simpa using hl)

end FindChunk

namespace State

section Fields

variable {s : State} {c n : Nat}

theorem unlinkPrev_next : (s.unlinkPrev c).next =
    if s.prev c ≠ 0 then update s.next (s.prev c) (s.next c) else s.next := by
  unfold unlinkPrev
  split <;> simp

-- The node that follows `c` does not depend on whether the predecessor has been redirected.
theorem unlinkPrev_next_self : (s.unlinkPrev c).next c = s.next c := by
  rw [unlinkPrev_next]
  split
  case isFalse => rfl
  case isTrue =>
    by_cases h : c = s.prev c
    case pos => rw [← h]; exact update_self ..
    case neg => exact update_of_ne h ..

theorem unlink_next : (s.unlink c).next =
    if s.prev c ≠ 0 then update s.next (s.prev c) (s.next c) else s.next := by
  rw [← unlinkPrev_next]
  simp only [unlink, unlinkNext, unlinkHead]
  split <;> split <;> simp

theorem unlink_prev : (s.unlink c).prev =
    if s.next c ≠ 0 then update s.prev (s.next c) (s.prev c) else s.prev := by
  have h : (s.unlinkPrev c).prev = s.prev := by unfold unlinkPrev; split <;> simp
  have h' : (s.unlink c).prev = ((s.unlinkPrev c).unlinkNext c).prev := by
    simp only [unlink, unlinkHead]
    split <;> simp
  rw [h', unlinkNext, unlinkPrev_next_self, h]
  split <;> simp [h]

theorem unlink_numPages : (s.unlink c).numPages = s.numPages := by
  simp only [unlink, unlinkPrev, unlinkNext, unlinkHead]
  split <;> split <;> split <;> simp

theorem unlink_freeList : (s.unlink c).freeList =
    if c = s.freeList then s.next c else s.freeList := by
  have h : ((s.unlinkPrev c).unlinkNext c).freeList = s.freeList := by
    simp only [unlinkPrev, unlinkNext]
    split <;> split <;> simp
  have h' : ((s.unlinkPrev c).unlinkNext c).next c = s.next c := by
    rw [unlinkNext]
    split <;> simp [unlinkPrev_next_self]
  rw [unlink, unlinkHead, h]
  split <;> simp [h, h']

theorem take_of_lt (h : n < s.numPages c) : s.take c n = s.setNumPages c (s.numPages c - n) := by
  have : s.numPages c - n ≠ 0 := by omega
  simp [take, this]

theorem take_of_eq (h : n = s.numPages c) : s.take c n = (s.setNumPages c 0).unlink c := by
  simp [take, h]

theorem take_numPages : (s.take c n).numPages = update s.numPages c (s.numPages c - n) := by
  simp only [take]
  split <;> simp [unlink_numPages]

end Fields

namespace FreeList

variable {s : State} {cs pre post : List Nat} {a c n : Nat}

-- Taking some but not all of the pages of a chunk.
theorem take_lt (fl : s.FreeList cs) (h : n < s.numPages c) : (s.take c n).FreeList cs := by
  rw [take_of_lt h]
  have hle (d : Nat) : (s.setNumPages c (s.numPages c - n)).numPages d ≤ s.numPages d := by
    by_cases h : d = c <;> simp [h]
  constructor
  case chain   => simpa using fl.chain
  case linked  => simpa using fl.linked
  case aligned => exact fl.aligned
  case ordered =>
    refine fl.ordered.imp ?_
    intro d _ hd
    have := hle d
    omega
  case nonempty =>
    intro d hd
    by_cases hdc : d = c
    case pos => simpa [hdc] using Nat.sub_pos_of_lt h
    case neg => simpa [hdc] using fl.nonempty d hd
  case bounded =>
    intro d hd
    have := hle d
    have := fl.bounded d hd
    omega

-- Two chunks of the list with the same successor are equal.
theorem next_inj (fl : s.FreeList cs) (ha : a ∈ cs) (hc : c ∈ cs) (hn : s.next a ≠ 0)
    (h : s.next a = s.next c) : a = c := by
  rw [← fl.linked a ha hn, h, fl.linked c hc (h ▸ hn)]

-- Unlinking the head of the list. The `prev` field of the head may be stale, but not point into the list.
theorem unlink_head (fl : s.FreeList (c :: post)) (h : s.prev c = 0 ∨ s.prev c ∉ c :: post) :
    ((s.setNumPages c 0).unlink c).FreeList post := by
  have hc := List.nodup_cons.mp fl.nodup |>.left
  have hnx {d : Nat} (hd : d ∈ post) : ((s.setNumPages c 0).unlink c).next d = s.next d := by
    rw [unlink_next]
    split
    case isFalse => simp
    case isTrue hp =>
      simp only [setNumPages_prev] at hp
      have : d ≠ s.prev c := fun he => h.resolve_left hp (by simp [← he, hd])
      simp [this]
  refine fl.of_sublist (List.sublist_cons_self ..) ?_ ?_ ?_
  case refine_1 =>
    intro d hd
    simp [unlink_numPages, ne_of_mem_of_not_mem hd hc]
  case refine_2 =>
    rw [unlink_freeList, if_pos (by simpa using fl.chain.left.symm)]
    exact Segment.congr (by simpa using fl.chain.right.right) (fun d hd => hnx hd)
  case refine_3 =>
    intro d hd hn
    rw [hnx hd] at hn ⊢
    have hne : s.next d ≠ s.next c := by
      intro he
      cases fl.next_inj (by simp [hd]) (by simp) hn he
      exact hc hd
    have hl := fl.linked d (by simp [hd]) hn
    rw [unlink_prev]
    split <;> simp [hne, hl]

-- Unlinking a chunk that stands behind another one.
theorem unlink_tail (fl : s.FreeList (pre ++ a :: c :: post)) :
    ((s.setNumPages c 0).unlink c).FreeList (pre ++ a :: post) := by
  have hd : (pre ++ [a] ++ c :: post).Nodup := by simpa using fl.nodup
  have hca : c ∉ pre ++ a :: post := by simpa using List.nodup_cons.mp (List.nodup_middle.mp hd) |>.left
  have haa := List.nodup_cons.mp (List.nodup_middle.mp fl.nodup) |>.left
  simp only [List.mem_append, List.mem_cons, not_or] at haa
  have ha : a ≠ 0 := fl.ne_null (by simp)
  have hc : s.next a = c := fl.chain.next_eq
  have hp : s.prev c = a := hc ▸ fl.linked a (by simp) (hc ▸ fl.ne_null (by simp))
  have hsub : (pre ++ a :: post).Sublist (pre ++ a :: c :: post) :=
    List.sublist_cons_self .. |>.cons_cons a |>.append_left pre
  have hnext : ((s.setNumPages c 0).unlink c).next = update s.next a (s.next c) := by
    simp [unlink_next, hp, ha]
  refine fl.of_sublist hsub ?_ ?_ ?_
  case refine_1 =>
    intro d hd
    simp [unlink_numPages, ne_of_mem_of_not_mem hd hca]
  case refine_2 =>
    have hf : c ≠ s.freeList := by
      intro hf
      cases pre
      case nil  => exact haa.right.left (fl.chain.left.symm.trans hf.symm)
      case cons => exact hca (by simp [hf, fl.chain.left])
    rw [hnext, unlink_freeList, setNumPages_freeList, if_neg hf]
    exact fl.chain.remove haa.left haa.right.right
  case refine_3 =>
    intro d hd hn
    rw [hnext] at hn ⊢
    rw [unlink_prev]
    by_cases hda : d = a
    case pos =>
      subst hda
      rw [update_self] at hn ⊢
      simp [hn, hp]
    case neg =>
      rw [update_of_ne hda] at hn ⊢
      have hl := fl.linked d (hsub.subset hd) hn
      have hne : s.next d ≠ s.next c := by
        intro he
        cases fl.next_inj (hsub.subset hd) (by simp) hn he
        exact hca hd
      split <;> simp [hne, hl]

-- After taking `n` pages from the chunk `c`, the free list has the same chunks as before, except for `c` if
-- it has no pages left.
theorem take (fl : s.FreeList cs) (hc : c ∈ cs) (hn : n ≤ s.numPages c)
    (h : s.prev s.freeList = 0 ∨ s.prev s.freeList ∉ cs) :
    ∃ cs', (s.take c n).FreeList cs' ∧ ∀ d, d ∈ cs' ↔ d ∈ cs ∧ (d ≠ c ∨ n < s.numPages c) := by
  by_cases hlt : n < s.numPages c
  case pos => exact ⟨cs, fl.take_lt hlt, by simp [hlt]⟩
  case neg =>
    rw [take_of_eq (Nat.le_antisymm hn (Nat.not_lt.mp hlt))]
    have ⟨pre, post, hcs⟩ := List.append_of_mem hc
    subst hcs
    have hm := List.nodup_cons.mp (List.nodup_middle.mp fl.nodup) |>.left
    refine ⟨pre ++ post, ?_, ?_⟩
    case refine_1 =>
      cases List.eq_nil_or_concat pre
      case inl hp =>
        subst hp
        exact fl.unlink_head (fl.chain.left ▸ h)
      case inr hp =>
        have ⟨pre, a, hp⟩ := hp
        subst hp
        simp only [List.concat_eq_append, List.append_assoc, List.singleton_append] at fl ⊢
        exact fl.unlink_tail
    case refine_2 =>
      intro d
      by_cases hdc : d = c
      case pos => simpa [hdc, hlt] using hm
      case neg => simp [hdc]

end FreeList

-- The last `n` pages of the chunk `c`.
def lastPages (s : State) (c n : Nat) : Range where
  base     := c + 4096 * (s.numPages c - n)
  numPages := n

namespace FreeList

variable {s : State} {cs : List Nat} {c n : Nat}

theorem lastPages_subset (hn : n ≤ s.numPages c) : (s.lastPages c n).pages ⊆ s.pages c := by
  intro x hx
  simp only [Range.pages, lastPages, pages, Set.mem_Ico] at hx ⊢
  omega

theorem lastPages_subset_covered (fl : s.FreeList cs) (hc : c ∈ cs) (hn : n ≤ s.numPages c) :
    (s.lastPages c n).pages ⊆ s.covered :=
  fun _ hx => fl.covered_iff.mpr ⟨c, hc, lastPages_subset hn hx⟩

theorem lastPages_valid (fl : s.FreeList cs) (hc : c ∈ cs) (hn : n ≤ s.numPages c) (h : 0 < n) :
    (s.lastPages c n).Valid where
  aligned  := Nat.dvd_add (fl.aligned c hc) (Nat.dvd_mul_right ..)
  nonempty := h
  bounded  := by
    have := fl.bounded c hc
    simp only [lastPages]
    omega

-- The address that is returned is the one of the last pages of the chunk.
theorem returnAddress_take (fl : s.FreeList cs) (hc : c ∈ cs) (hn : n ≤ s.numPages c) (h : 0 < n) :
    (s.take c n).returnAddress c = (s.lastPages c n).base := by
  have := fl.bounded c hc
  simp only [returnAddress, take_numPages, update_self, lastPages, wrap, PageSize_eq]
  omega

-- The `prev` field of the head of the list stays the same, even if the list gets another head.
theorem prev_take (fl : s.FreeList cs) (hc : c ∈ cs) (hn : n ≤ s.numPages c)
    (h : (s.take c n).freeList ≠ 0) : (s.take c n).prev (s.take c n).freeList = s.prev s.freeList := by
  by_cases hlt : n < s.numPages c
  case pos => simp [take_of_lt hlt]
  case neg =>
    rw [take_of_eq (Nat.le_antisymm hn (Nat.not_lt.mp hlt))] at h ⊢
    rw [unlink_freeList] at h ⊢
    rw [unlink_prev]
    by_cases hf : c = s.freeList
    case pos =>
      simp only [setNumPages_freeList, setNumPages_next, setNumPages_prev, ← hf, ↓reduceIte] at h ⊢
      rw [if_pos h, update_self]
    case neg =>
      simp only [setNumPages_freeList, setNumPages_next, setNumPages_prev, hf, ↓reduceIte]
      split
      case isFalse => rfl
      case isTrue hx =>
        have := fl.freeList_le hc
        have := fl.lt_next hc hx
        exact update_of_ne (by omega) ..

-- Exactly the last pages of the chunk are removed from the free list.
theorem covered_take (fl : s.FreeList cs) (hc : c ∈ cs) (hn : n ≤ s.numPages c)
    (h : s.prev s.freeList = 0 ∨ s.prev s.freeList ∉ cs) :
    (s.take c n).covered = s.covered \ (s.lastPages c n).pages := by
  obtain ⟨cs', fl', hcs'⟩ := fl.take hc hn h
  ext x
  rw [Set.mem_sdiff, fl'.covered_iff, fl.covered_iff]
  simp only [hcs', State.pages, take_numPages]
  constructor
  case mp =>
    rintro ⟨d, ⟨hd, hdc⟩, hx⟩
    by_cases he : d = c
    case pos =>
      subst he
      simp only [update_self, Set.mem_Ico, Range.pages, lastPages] at hx ⊢
      exact ⟨⟨d, hd, by omega⟩, by omega⟩
    case neg =>
      rw [update_of_ne he] at hx
      refine ⟨⟨d, hd, hx⟩, fun hl => ?_⟩
      exact Set.disjoint_left.mp (fl.disjoint hd hc he) hx (lastPages_subset hn hl)
  case mpr =>
    rintro ⟨⟨d, hd, hx⟩, hl⟩
    by_cases he : d = c
    case pos =>
      subst he
      simp only [Set.mem_Ico, Range.pages, lastPages] at hx hl
      exact ⟨d, ⟨hd, .inr (by omega)⟩, by simp only [update_self, Set.mem_Ico]; omega⟩
    case neg => exact ⟨d, ⟨hd, .inl he⟩, by rwa [update_of_ne he]⟩

theorem allocatePages_cases {s' : State} {fuel b : Nat} (fl : s.FreeList cs) (hn : 1 ≤ n)
    (h : allocatePages fuel s n = some (s', b)) :
    (s' = s ∧ b = 0 ∧ ∀ c ∈ cs, s.numPages c < n) ∨
    (∃ c ∈ cs, n ≤ s.numPages c ∧ s' = s.take c n ∧ b = (s.lastPages c n).base ∧ b ≠ 0) := by
  have ⟨x, hf, h⟩ := Option.map_eq_some_iff.mp h
  cases findChunk_spec fl.chain hf
  case inl hx =>
    simp only [hx.left, ↓reduceIte, Prod.mk.injEq] at h
    exact .inl ⟨h.left.symm, h.right.symm, hx.right⟩
  case inr hx =>
    have ⟨pre, post, hcs, _, hle⟩ := hx
    have hm : x ∈ cs := by simp [hcs]
    have h0 := fl.ne_null hm
    simp only [h0, ↓reduceIte, Prod.mk.injEq, fl.returnAddress_take hm hle hn] at h
    refine .inr ⟨x, hm, hle, h.left.symm, h.right.symm, ?_⟩
    have := h.right
    simp only [lastPages] at this
    omega

theorem allocatePages_isSome {fuel : Nat} (fl : s.FreeList cs) (hf : cs.length < fuel) :
    (allocatePages fuel s n).isSome := by
  simpa [allocatePages] using findChunk_isSome fl.chain hf

end FreeList
end State
end PhysicalMemoryManagement
