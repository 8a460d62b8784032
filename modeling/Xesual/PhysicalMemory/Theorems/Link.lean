import Xesual.PhysicalMemory.FreeList

-- What the assignments of `freePages` do to the individual fields of the headers in memory.

namespace PhysicalMemoryManagement.State

open Function

section Fields

variable {s : State} {base numPages a : Nat}

-- The successor is adjacent to the freed range, which is what line 75 checks.
def AdjacentNext (base numPages next : Nat) : Prop :=
  next ≠ 0 ∧ wrap (base + wrap (PageSize * numPages)) = next

-- The predecessor is adjacent to the freed range, which is what line 84 checks.
def AdjacentPrev (s : State) (base prev : Nat) : Prop :=
  prev ≠ 0 ∧ wrap (prev + wrap (PageSize * s.numPages prev)) = base

instance : Decidable (AdjacentNext base numPages a) := inferInstanceAs (Decidable (_ ∧ _))
instance : Decidable (s.AdjacentPrev base a) := inferInstanceAs (Decidable (_ ∧ _))

theorem linkNext_next (h : a ≠ base) : (s.linkNext base numPages a).next =
    update s.next base (if AdjacentNext base numPages a then s.next a else a) := by
  by_cases ha : a = 0
  case pos => simp [linkNext, AdjacentNext, ha]
  case neg =>
    by_cases hw : wrap (base + wrap (PageSize * numPages)) = a
    case pos => simp [linkNext, AdjacentNext, ha, hw, h]
    case neg => simp [linkNext, AdjacentNext, ha, hw]

theorem linkNext_prev : (s.linkNext base numPages a).prev =
    if a ≠ 0 then update s.prev a base else s.prev := by
  by_cases ha : a = 0
  case pos => simp [linkNext, ha]
  case neg =>
    by_cases hw : wrap (base + wrap (PageSize * numPages)) = a <;> simp [linkNext, ha, hw]

theorem linkNext_numPages : (s.linkNext base numPages a).numPages =
    if AdjacentNext base numPages a
    then update s.numPages base (wrap (s.numPages base + s.numPages a)) else s.numPages := by
  by_cases ha : a = 0
  case pos => simp [linkNext, AdjacentNext, ha]
  case neg =>
    by_cases hw : wrap (base + wrap (PageSize * numPages)) = a <;> simp [linkNext, AdjacentNext, ha, hw]

theorem linkNext_freeList : (s.linkNext base numPages a).freeList = s.freeList := by
  simp only [linkNext]
  split <;> try split
  all_goals rfl

theorem linkPrev_next : (s.linkPrev base numPages a).next =
    if a ≠ 0 then update s.next a base else s.next := by
  by_cases ha : a = 0
  case pos => simp [linkPrev, ha]
  case neg =>
    by_cases hw : wrap (a + wrap (PageSize * s.numPages a)) = base <;> simp [linkPrev, ha, hw]

theorem linkPrev_prev : (s.linkPrev base numPages a).prev = update s.prev base a := by
  by_cases ha : a = 0
  case pos => simp [linkPrev, ha]
  case neg =>
    by_cases hw : wrap (a + wrap (PageSize * s.numPages a)) = base <;> simp [linkPrev, ha, hw]

theorem linkPrev_numPages : (s.linkPrev base numPages a).numPages =
    if s.AdjacentPrev base a
    then update s.numPages a (wrap (s.numPages a + numPages)) else s.numPages := by
  by_cases ha : a = 0
  case pos => simp [linkPrev, AdjacentPrev, ha]
  case neg =>
    by_cases hw : wrap (a + wrap (PageSize * s.numPages a)) = base <;> simp [linkPrev, AdjacentPrev, ha, hw]

theorem linkPrev_freeList : (s.linkPrev base numPages a).freeList = s.freeList := by
  simp only [linkPrev]
  split <;> try split
  all_goals rfl

variable {prev next c : Nat}

-- The node that follows the chunk `base` once it is linked in.
def successor (s : State) (base numPages next : Nat) : Nat :=
  if AdjacentNext base numPages next then s.next next else next

theorem link_next (hn : next ≠ base) : (s.link base numPages prev next).next =
    if prev ≠ 0
    then update (update s.next base (s.successor base numPages next)) prev base
    else update s.next base (s.successor base numPages next) := by
  simp only [link, linkPrev_next, linkNext_next hn, successor]

theorem link_prev : (s.link base numPages prev next).prev =
    update (if next ≠ 0 then update s.prev next base else s.prev) base prev := by
  simp only [link, linkPrev_prev, linkNext_prev]

theorem link_numPages_base (hp : prev ≠ base) : (s.link base numPages prev next).numPages base =
    if AdjacentNext base numPages next then wrap (s.numPages base + s.numPages next)
    else s.numPages base := by
  simp only [link, linkPrev_numPages, linkNext_numPages]
  split <;> split <;> simp [hp.symm]

theorem link_numPages_prev (hp : prev ≠ base) : (s.link base numPages prev next).numPages prev =
    if s.AdjacentPrev base prev then wrap (s.numPages prev + numPages) else s.numPages prev := by
  have hn : (s.linkNext base numPages next).numPages prev = s.numPages prev := by
    rw [linkNext_numPages]
    split <;> simp [hp]
  have ha : (s.linkNext base numPages next).AdjacentPrev base prev ↔ s.AdjacentPrev base prev := by
    simp [AdjacentPrev, hn]
  rw [link, linkPrev_numPages]
  by_cases h : s.AdjacentPrev base prev
  case pos => simp [h, ha.mpr h, hn]
  case neg => simp [h, mt ha.mp h, hn]

theorem link_numPages (hb : c ≠ base) (hp : c ≠ prev) :
    (s.link base numPages prev next).numPages c = s.numPages c := by
  simp only [link, linkPrev_numPages, linkNext_numPages]
  split <;> split <;> simp [hb, hp]

theorem link_freeList : (s.link base numPages prev next).freeList = s.freeList := by
  rw [link, linkPrev_freeList, linkNext_freeList]

end Fields

section Clear

variable {s : State} {r : Range} {a : Nat}

-- Clearing a range does not affect the headers outside of it.
theorem clear_chunk (v : r.Valid) (h : a ∉ r.pages) :
    (s.clear r.base r.numPages).chunk a = s.chunk a := by
  have hb := v.bounded
  have ha : a ≠ r.base := fun ha => h (ha ▸ v.base_mem)
  simp only [Range.pages, Set.mem_Ico] at h
  have hm : ¬(r.base ≤ a ∧ a < r.base + wrap (PageSize * r.numPages)) := by
    simp only [wrap, PageSize_eq]
    omega
  simp [clear, setNumPages, store, memset, ha, hm]

theorem clear_next (v : r.Valid) (h : a ∉ r.pages) : (s.clear r.base r.numPages).next a = s.next a := by
  simp [next, clear_chunk v h]

theorem clear_prev (v : r.Valid) (h : a ∉ r.pages) : (s.clear r.base r.numPages).prev a = s.prev a := by
  simp [prev, clear_chunk v h]

theorem clear_numPages (v : r.Valid) (h : a ∉ r.pages) :
    (s.clear r.base r.numPages).numPages a = s.numPages a := by
  simp [numPages, clear_chunk v h]

theorem clear_numPages_base : (s.clear r.base r.numPages).numPages r.base = r.numPages := by
  simp [clear]

theorem clear_next_base (v : r.Valid) (h : r.base ≠ 0) : (s.clear r.base r.numPages).next r.base = 0 := by
  have := v.bounded
  have := v.nonempty
  have hm : r.base < r.base + wrap (PageSize * r.numPages) := by
    simp only [wrap, PageSize_eq]
    omega
  simp [clear, next, setNumPages, store, memset, hm]

theorem clear_prev_base (v : r.Valid) (h : r.base ≠ 0) : (s.clear r.base r.numPages).prev r.base = 0 := by
  have := v.bounded
  have := v.nonempty
  have hm : r.base < r.base + wrap (PageSize * r.numPages) := by
    simp only [wrap, PageSize_eq]
    omega
  simp [clear, prev, setNumPages, store, memset, hm]

theorem clear_freeList {base numPages : Nat} : (s.clear base numPages).freeList = s.freeList :=
  rfl

end Clear

section Adjacent

variable {s : State} {r : Range} {a : Nat}

-- In the address space, line 75 checks whether the freed range ends at the successor.
theorem adjacentNext_iff (v : r.Valid) (h₁ : a ≠ 0) (h₂ : a < 2 ^ 64) :
    AdjacentNext r.base r.numPages a ↔ r.base + 4096 * r.numPages = a := by
  have := v.bounded
  simp only [AdjacentNext, wrap, PageSize_eq]
  omega

-- In the address space, line 84 checks whether the predecessor ends at the freed range.
theorem adjacentPrev_iff {base : Nat} (h₁ : a ≠ 0) (h₂ : a + 4096 * s.numPages a ≤ 2 ^ 64)
    (h₃ : a < base) (h₄ : base < 2 ^ 64) : s.AdjacentPrev base a ↔ a + 4096 * s.numPages a = base := by
  simp only [AdjacentPrev, wrap, PageSize_eq]
  omega

end Adjacent

end PhysicalMemoryManagement.State
