import Xesual.PhysicalMemory.Theorems.FreePages
import Xesual.PhysicalMemory.Theorems.AllocatePages

-- The invariant that relates the free list to the ranges which are held by the callers of the allocator,
-- and how the operations of the allocator affect it.

namespace PhysicalMemoryManagement.State

open Function Linked

-- The address belongs neither to the free list nor to a range in `held`.
def Lost (s : State) (held : List Range) (a : Nat) : Prop :=
  a ∉ s.covered ∧ ∀ r ∈ held, a ∉ r.pages

-- The ranges in `held` and the chunks of the free list are pairwise disjoint. When a range below the head
-- of the free list is freed then its pages are lost, and the `prev` field of the head remains pointing at
-- them. As lost pages are never handed out again, nobody is affected by later assignments through `prev`.
structure Ownership (s : State) (held : List Range) : Prop where
  wellFormed : s.WellFormed
  valid      : ∀ r ∈ held, r.Valid
  disjoint   : held.Pairwise (fun r r' => Disjoint r.pages r'.pages)
  free       : ∀ r ∈ held, Disjoint r.pages s.covered
  head       : s.freeList ≠ 0 → s.prev s.freeList = 0 ∨ s.Lost held (s.prev s.freeList)

-- Freeing the range does not reach one of the branches of `freePages` which are defective:
-- 1. If the range is adjacent to the end of a chunk then that chunk is extended by the range, but the range
--    nevertheless becomes a chunk of its own.
-- 2. If the range is adjacent to the start of a chunk then it absorbs that chunk, but the chunk thereafter
--    still refers to the absorbed chunk. This is harmless if there is no chunk thereafter, and if the range
--    lies below the head of the list, as it is then not linked into the list at all.
structure Separate (s : State) (r : Range) : Prop where
  prev : ∀ c, s.Listed c → c + 4096 * s.numPages c ≠ r.base
  next : ∀ c, s.Listed c → r.base + 4096 * r.numPages = c → c = s.freeList ∨ s.next c = 0

-- If the freed range absorbs a chunk then that chunk is the last one.
theorem FreeList.tail_eq_nil {s : State} {r : Range} {pre post : List Nat} {a : Nat}
    (fl : s.FreeList (pre ++ a :: post)) (hs : s.Separate r) (v : r.Valid) (ha : a < r.base)
    (h : AdjacentNext r.base r.numPages (post.headD 0)) : post.tail = [] := by
  cases post
  case nil => rfl
  case cons d ds =>
    have hb := fl.bounded d (by simp)
    have hp := fl.nonempty d (by simp)
    have h := (adjacentNext_iff v h.left (by simp only [List.headD_cons]; omega)).mp h
    have hf := fl.freeList_le (c := a) (by simp)
    have hn := hs.next d (fl.mem_iff.mp (by simp)) h |>.resolve_left (by simp at h; omega)
    have hc : Chain s.next 0 s.freeList ((pre ++ [a]) ++ d :: ds) := by simpa using fl.chain
    rw [hc.next_eq] at hn
    cases ds
    case nil  => rfl
    case cons => exact absurd hn (fl.ne_null (by simp))

namespace Ownership

variable {s s' : State} {held held' : List Range} {r : Range} {fuel c n : Nat}

theorem perm (o : s.Ownership held) (h : held.Perm held') : s.Ownership held' where
  wellFormed := o.wellFormed
  valid      := fun r hr => o.valid r (h.mem_iff.mpr hr)
  disjoint   := o.disjoint.perm h (fun h => h.symm)
  free       := fun r hr => o.free r (h.mem_iff.mpr hr)
  head       := fun hf => (o.head hf).imp_right (fun l => ⟨l.left, fun r hr => l.right r (h.mem_iff.mpr hr)⟩)

-- What has to be shown about the free list after the range `r` has been freed.
theorem of_free {cs : List Nat} (o : s.Ownership (r :: held)) (fl : s'.FreeList cs)
    (hc : s'.covered ⊆ s.covered ∪ r.pages)
    (hh : s'.freeList ≠ 0 → s'.prev s'.freeList = 0 ∨ s'.Lost held (s'.prev s'.freeList)) :
    s'.Ownership held where
  wellFormed := ⟨cs, fl⟩
  valid      := fun r' h => o.valid r' (by simp [h])
  disjoint   := o.disjoint.of_cons
  free       := by
    intro r' h
    have hr := List.rel_of_pairwise_cons o.disjoint h
    exact Set.disjoint_of_subset_right hc <|
      Set.disjoint_union_right.mpr ⟨o.free r' (by simp [h]), hr.symm⟩
  head       := hh

theorem freePages (o : s.Ownership (r :: held)) (hs : s.Separate r)
    (h : freePages fuel s r.base r.numPages = some s') : s'.Ownership held := by
  have ⟨cs, fl⟩ := o.wellFormed
  have v := o.valid r (by simp)
  have hd := o.free r (by simp)
  obtain ⟨hcs, he⟩ | ⟨d, ds, hcs, hlt, he⟩ | ⟨pre, a, post, hcs, hlt, hpost, he⟩ :=
    fl.freePages_cases v hd h
  all_goals subst hcs he
  case inl =>
    by_cases hb : r.base = 0
    case pos =>
      refine o.of_free (freeList_nil hb) ?_ (fun hf => absurd hb hf)
      simp [covered_eq_empty (s := (s.clear r.base r.numPages).setFreeList r.base) hb]
    case neg =>
      refine o.of_free (freeList_of_empty v hb) ?_ (fun _ => .inl <| clear_prev_base v hb)
      rw [covered_of_empty v hb]
      exact Set.subset_union_right
  case inr.inl =>
    have hb := fl.base_not_mem v hd
    have hc := (covered_of_below (fl.clear v hd) hb hlt).trans (fl.covered_clear v hd)
    refine o.of_free (freeList_of_below (fl.clear v hd) hb hlt) (hc ▸ Set.subset_union_left) ?_
    -- The head of the list now points back at the freed range, which is lost.
    have hp : ((s.clear r.base r.numPages).link r.base r.numPages 0 d).prev s.freeList = r.base := by
      have : d ≠ 0 := fl.ne_null (by simp)
      simp [fl.chain.left, link_prev, this, hlt.ne']
    rw [link_freeList, clear_freeList, hp]
    refine fun _ => .inr ⟨?_, ?_⟩
    case refine_1 => exact hc ▸ Set.disjoint_left.mp hd v.base_mem
    case refine_2 => exact fun r' h => Set.disjoint_left.mp (List.rel_of_pairwise_cons o.disjoint h) v.base_mem
  case inr.inr =>
    have b := fl.behind v hd hlt hpost
    have hc := b.covered.trans (by rw [fl.covered_clear v hd])
    refine o.of_free (b.freeList_link ?_ ?_) hc.subset ?_
    case refine_1 =>
      rw [clear_numPages v <| fl.not_mem_pages hd (by simp)]
      exact hs.prev a (fl.mem_iff.mp (by simp))
    case refine_2 => exact fl.tail_eq_nil hs v hlt
    case refine_3 =>
      intro hn
      rw [link_freeList, clear_freeList] at hn ⊢
      rw [fl.prev_link v hd hlt hpost]
      refine (o.head hn).imp_right (fun l => ⟨?_, fun r' h => l.right r' (by simp [h])⟩)
      rw [hc]
      exact fun h => h.elim l.left (l.right r (by simp))

theorem take (o : s.Ownership held) (hc : s.Listed c) (hn : 0 < n) (hle : n ≤ s.numPages c) :
    (s.take c n).Ownership (s.lastPages c n :: held) := by
  obtain ⟨cs, fl⟩ := o.wellFormed
  have hm := fl.mem_iff.mpr hc
  have hf : s.freeList ≠ 0 := fun hf => by simp [fl.chain.eq_nil_iff.mpr hf] at hm
  have hp : s.prev s.freeList = 0 ∨ s.prev s.freeList ∉ cs :=
    (o.head hf).imp_right (fun l => mt fl.mem_covered l.left)
  obtain ⟨_, fl', _⟩ := fl.take hm hle hp
  have hcov := fl.covered_take hm hle hp
  have hsub := fl.lastPages_subset_covered hm hle
  constructor
  case wellFormed => exact ⟨_, fl'⟩
  case valid      => simpa using ⟨fl.lastPages_valid hm hle hn, o.valid⟩
  case disjoint   =>
    refine List.pairwise_cons.mpr ⟨fun r hr => ?_, o.disjoint⟩
    exact Set.disjoint_of_subset_left hsub (o.free r hr).symm
  case free =>
    intro r hr
    rw [hcov]
    cases hr
    case head    => exact disjoint_sdiff_self_right
    case tail hr => exact Set.disjoint_of_subset_right Set.sdiff_subset (o.free r hr)
  case head =>
    intro hf'
    rw [fl.prev_take hm hle hf']
    refine (o.head hf).imp_right (fun l => ⟨?_, ?_⟩)
    case refine_1 => exact fun h => l.left (Set.sdiff_subset (hcov ▸ h))
    case refine_2 =>
      intro r hr
      cases hr
      case head    => exact fun h => l.left (hsub h)
      case tail hr => exact l.right r hr

-- The holder of a range may write to its pages.
theorem store {a : Nat} (o : s.Ownership held) (hr : r ∈ held) (ha : a ∈ r.pages) (m : MemoryChunk) :
    (s.store a m).Ownership held := by
  have ⟨cs, fl⟩ := o.wellFormed
  have hne {d : Nat} (hd : d ∈ cs) : d ≠ a :=
    fun h => Set.disjoint_left.mp (o.free r hr) (h ▸ ha) (fl.mem_covered hd)
  have fl' : (s.store a m).FreeList cs := by
    refine fl.of_sublist (.refl _) ?_ ?_ ?_
    case refine_1 => exact fun d hd => by simp [hne hd]
    case refine_2 => exact fl.chain.congr (fun d hd => by simp [hne hd])
    case refine_3 =>
      intro d hd hn
      simp only [store_next, update_of_ne (hne hd)] at hn ⊢
      simpa [hne (fl.next_mem hd hn)] using fl.linked d hd hn
  have hcov : (s.store a m).covered = s.covered := by
    ext x
    rw [fl'.covered_iff, fl.covered_iff]
    refine exists_congr fun d => and_congr_right fun hd => ?_
    simp [pages, hne hd]
  refine ⟨⟨cs, fl'⟩, o.valid, o.disjoint, hcov.symm ▸ o.free, ?_⟩
  intro hf
  have hf' : s.freeList ≠ a := hne <| fl.freeList_mem <| mt fl.chain.eq_nil_iff.mp hf
  have := o.head hf
  simp only [Lost, hcov, store_prev]
  rwa [show (s.store a m).freeList = s.freeList from rfl, update_of_ne hf']

end Ownership
end PhysicalMemoryManagement.State
