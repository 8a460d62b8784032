import Xesual.Boot.MemoryMap
import Xesual.PhysicalMemory.Theorems.Ownership

namespace PhysicalMemoryManagement

namespace State

variable {s s' : State} {free : List Range} {r : Range} {fuel n : Nat}

theorem represents_init (s : State) : (init s).Represents [] where
  freeList := freeList_nil rfl
  numPages := by simp
  head     := fun h => absurd rfl h

namespace Represents

theorem covered_iff (h : s.Represents free) {a : Nat} : a ∈ s.covered ↔ ∃ r ∈ free, a ∈ r.pages := by
  simp only [h.freeList.covered_iff, List.mem_map, exists_exists_and_eq_and]
  refine exists_congr fun r => and_congr_right fun hr => ?_
  rw [pages, Range.pages, h.numPages r hr]

theorem listed (h : s.Represents free) (hr : r ∈ free) : s.Listed r.base :=
  h.freeList.mem_iff.mp <| List.mem_map_of_mem hr

theorem valid (h : s.Represents free) (hr : r ∈ free) : r.Valid where
  aligned  := h.freeList.aligned _ <| List.mem_map_of_mem hr
  nonempty := h.numPages r hr ▸ h.freeList.nonempty _ (List.mem_map_of_mem hr)
  bounded  := h.numPages r hr ▸ h.freeList.bounded _ (List.mem_map_of_mem hr)

theorem ownership (h : s.Represents free) : s.Ownership [] where
  wellFormed := ⟨_, h.freeList⟩
  valid      := by simp
  disjoint   := .nil
  free       := by simp
  head       := fun hf => .inl <| h.head hf

-- Freeing a range above all others appends it to the list. The range is not adjacent to the last one.
theorem freePages_above (h : s.Represents free) (v : r.Valid) (hb : r.base ≠ 0)
    (ha : ∀ r' ∈ free, r'.base + 4096 * r'.numPages < r.base) (hf : free.length < fuel) :
    ∃ s', freePages fuel s r.base r.numPages = some s' ∧ s'.Represents (free ++ [r]) := by
  have fl := h.freeList
  have hlt {c : Nat} (hc : c ∈ free.map Range.base) : c + 4096 * s.numPages c < r.base := by
    obtain ⟨r', hr', hc⟩ := List.mem_map.mp hc
    subst hc
    rw [h.numPages r' hr']
    exact ha r' hr'
  have hd : Disjoint r.pages s.covered := by
    rw [Set.disjoint_left]
    intro a har hac
    obtain ⟨r', hr', har'⟩ := h.covered_iff.mp hac
    have := ha r' hr'
    simp only [Range.pages, Set.mem_Ico] at har har'
    omega
  have hl : (free.map Range.base).length < fuel := by simpa using hf
  obtain ⟨s', hs⟩ := Option.isSome_iff_exists.mp <| fl.freePages_isSome v hd hl
  refine ⟨s', hs, ?_⟩
  obtain ⟨hcs, he⟩ | ⟨d, ds, hcs, hdr, he⟩ | ⟨pre, a, post, hcs, har, hpost, he⟩ :=
    fl.freePages_cases v hd hs
  case inl =>
    have hnil := List.map_eq_nil_iff.mp hcs
    subst hnil he
    exact ⟨freeList_of_empty v hb, by simp [clear_numPages_base], fun _ => clear_prev_base v hb⟩
  case inr.inl =>
    have := hlt (c := d) (by simp [hcs])
    omega
  case inr.inr =>
    have hnil : post = [] := by
      refine List.eq_nil_iff_forall_not_mem.mpr fun d hd => ?_
      have := hlt (c := d) (by simp [hcs, hd])
      have := hpost d hd
      omega
    subst hnil he
    rw [hcs] at fl
    have b := fl.behind v hd har hpost
    have hna : a + 4096 * (s.clear r.base r.numPages).numPages a ≠ r.base := by
      rw [clear_numPages v <| fl.not_mem_pages hd (by simp)]
      exact (hlt (by simp [hcs])).ne
    have hrest : Behind.rest r [] = [] := by simp [Behind.rest]
    constructor
    case freeList =>
      have := b.freeList_link hna (fun _ => rfl)
      rw [hrest] at this
      simpa [hcs] using this
    case numPages =>
      intro r' hr'
      cases List.mem_append.mp hr'
      case inl hr' =>
        have hm : r'.base ∈ pre ++ [a] := hcs ▸ List.mem_map_of_mem hr'
        rw [b.numPages_eq hna _ hm, clear_numPages v <| fl.not_mem_pages hd hm, h.numPages r' hr']
      case inr hr' =>
        rw [List.mem_singleton.mp hr', link_numPages_base har.ne, if_neg (by simp [AdjacentNext]),
          clear_numPages_base]
    case head =>
      rw [link_freeList, clear_freeList, fl.prev_link v hd har hpost]
      exact h.head

variable {pre post : List Range}

theorem base_ne (h : s.Represents (pre ++ r :: post)) {r' : Range} (hr : r' ∈ pre ++ post) :
    r'.base ≠ r.base := by
  have hnd := h.freeList.nodup
  rw [List.map_append, List.map_cons, List.nodup_middle, List.nodup_cons, ← List.map_append] at hnd
  exact fun he => hnd.left <| he ▸ List.mem_map_of_mem hr

-- The chunks that are left after taking pages from the end of the range `r`.
theorem freeList_take (h : s.Represents (pre ++ r :: post)) (hn : n ≤ r.numPages) :
    (s.take r.base n).FreeList ((pre ++ r.without n ++ post).map Range.base) := by
  have hr : r ∈ pre ++ r :: post := by simp
  have hnp := h.numPages r hr
  by_cases hlt : n < r.numPages
  case pos => simpa [Range.without, hlt] using h.freeList.take_lt (hnp ▸ hlt)
  case neg =>
    have hf : s.freeList ≠ 0 := mt h.freeList.chain.eq_nil_iff.mpr (by simp)
    have hm := List.mem_map_of_mem (f := Range.base) hr
    have ⟨cs, fl, hcs⟩ := h.freeList.take hm (hnp ▸ hn) (.inl <| h.head hf)
    have hsub : (pre ++ post).Sublist (pre ++ r :: post) := List.sublist_cons_self .. |>.append_left pre
    have he : cs = (pre ++ post).map Range.base := by
      -- Both lists are sorted and have the same members.
      refine fl.sorted.eq_of_mem_iff (h.freeList.sorted.sublist <| hsub.map _) fun c => ?_
      rw [hcs, hnp]
      constructor
      case mp =>
        intro ⟨hc, hcr⟩
        have hcr := hcr.resolve_right hlt
        simpa [hcr] using hc
      case mpr =>
        intro hc
        have ⟨r', hr', hc⟩ := List.mem_map.mp hc
        exact ⟨hc ▸ List.mem_map_of_mem (hsub.subset hr'), .inl (hc ▸ h.base_ne hr')⟩
    simpa [Range.without, hlt, he] using fl

theorem take (h : s.Represents (pre ++ r :: post)) (hn : n ≤ r.numPages) :
    (s.take r.base n).Represents (pre ++ r.without n ++ post) where
  freeList := h.freeList_take hn
  numPages := by
    intro r' hr'
    rw [take_numPages]
    by_cases hm : r' ∈ pre ++ post
    case pos =>
      rw [Function.update_of_ne (h.base_ne hm)]
      refine h.numPages r' ?_
      simp only [List.mem_append, List.mem_cons] at hm ⊢
      exact hm.imp_right .inr
    case neg =>
      have hw : r' ∈ r.without n := by
        simp only [List.mem_append, not_or] at hr' hm
        exact hr'.resolve_right hm.right |>.resolve_left hm.left
      obtain ⟨hlt, hw⟩ := List.mem_ite_nil_right.mp hw
      rw [List.mem_singleton.mp hw, Function.update_self, h.numPages r (by simp)]
  head     := by
    intro hf
    have hr : r ∈ pre ++ r :: post := by simp
    have hm := List.mem_map_of_mem (f := Range.base) hr
    rw [h.freeList.prev_take hm (h.numPages r hr ▸ hn) hf]
    exact h.head <| mt h.freeList.chain.eq_nil_iff.mpr (by simp)

end Represents
end State

theorem Range.without_subset {r r' : Range} {n : Nat} (h : r' ∈ r.without n) : r'.pages ⊆ r.pages := by
  have ⟨_, h⟩ := List.mem_ite_nil_right.mp h
  rw [List.mem_singleton.mp h]
  intro a ha
  simp only [pages, Set.mem_Ico] at ha ⊢
  omega

theorem Range.total_without {pre post : List Range} {r : Range} {n : Nat} (h : n ≤ r.numPages) :
    total (pre ++ r.without n ++ post) + n = total (pre ++ r :: post) := by
  simp only [total, without, List.map_append, List.map_cons, List.sum_append, List.sum_cons]
  split <;> simp <;> omega

-- What holds before and after each call of `allocatePages`, where `usable` are the ranges that were handed over
-- at boot and `free` are the ranges on the free list.
structure Calls.Invariant (usable free : List Range) (σ : Calls) : Prop where
  represents : σ.memory.Represents free
  ownership  : σ.memory.Ownership σ.owned
  inside     : ∀ r ∈ free, ∃ r' ∈ usable, r.pages ⊆ r'.pages
  length     : free.length ≤ usable.length

namespace Calls.Invariant

variable {usable free pre post : List Range} {r : Range} {σ : Calls} {s' : State} {fuel n : Nat}

theorem start {s : State} (h : s.Represents usable) : Invariant usable usable ⟨s, []⟩ where
  represents := h
  ownership  := h.ownership
  inside     := fun r hr => ⟨r, hr, subset_rfl⟩
  length     := le_rfl

-- Taking pages from the range `r`.
theorem take (inv : σ.Invariant usable (pre ++ r :: post)) (hn : 1 ≤ n) (hle : n ≤ r.numPages) :
    Invariant usable (pre ++ r.without n ++ post) ⟨σ.memory.take r.base n, r.last n :: σ.owned⟩ where
  represents := inv.represents.take hle
  ownership  := by
    have hr : r ∈ pre ++ r :: post := by simp
    have hnp := inv.represents.numPages r hr
    have := inv.ownership.take (inv.represents.listed hr) hn (hnp ▸ hle)
    rwa [State.lastPages, hnp] at this
  inside     := by
    intro r' hr'
    simp only [List.mem_append, or_assoc] at hr'
    obtain hr' | hr' | hr' := hr'
    · exact inv.inside r' (by simp [hr'])
    · obtain ⟨u, hu, hs⟩ := inv.inside r (by simp)
      exact ⟨u, hu, (Range.without_subset hr').trans hs⟩
    · exact inv.inside r' (by simp [hr'])
  length     := by
    have := inv.length
    simp only [List.length_append, List.length_cons, Range.without] at this ⊢
    split <;> simp <;> omega

theorem takes (inv : σ.Invariant usable (pre ++ r :: post)) (hn : 1 ≤ n) (hle : n ≤ r.numPages) :
    Takes usable σ.owned (pre ++ r :: post) (pre ++ r.without n ++ post) n (r.last n).base := by
  have inv' := inv.take hn hle
  have hr : r ∈ pre ++ r :: post := by simp
  have hb : r.base ≠ 0 := inv.represents.freeList.ne_null <| List.mem_map_of_mem hr
  constructor
  case fits    => exact ⟨r, hr, hle⟩
  case found   =>
    simp only [Range.last]
    omega
  case aligned => exact inv'.ownership.valid (r.last n) (by simp) |>.aligned
  case inside  =>
    have ⟨u, hu, hs⟩ := inv.inside r hr
    refine ⟨u, hu, fun a ha => hs ?_⟩
    simp only [Range.pages, Range.last, Set.mem_Ico] at ha ⊢
    omega
  case earlier => exact fun r' hr' => List.rel_of_pairwise_cons inv'.ownership.disjoint hr'
  case remaining =>
    intro r' hr'
    refine Set.disjoint_of_subset_right (fun a ha => ?_) (inv'.ownership.free (r.last n) (by simp))
    exact inv'.represents.covered_iff.mpr ⟨r', hr', ha⟩
  case total => exact Range.total_without hle

theorem allocatePages (inv : σ.Invariant usable free) (hn : 1 ≤ n) (hf : usable.length < fuel) :
    ∃ free' s' base, allocatePages fuel σ.memory n = some (s', base) ∧
      Allocates usable σ.owned free free' n σ.memory s' base ∧
      Invariant usable free' ⟨s', if base = 0 then σ.owned else ⟨base, n⟩ :: σ.owned⟩ := by
  have fl := inv.represents.freeList
  have hl : (free.map Range.base).length < fuel := by simpa using inv.length.trans_lt hf
  have ⟨⟨s', base⟩, hs⟩ := Option.isSome_iff_exists.mp <| fl.allocatePages_isSome (n := n) hl
  obtain ⟨he, hb, hc⟩ | ⟨c, hc, hle, he, hb, hb'⟩ := fl.allocatePages_cases hn hs
  case inl =>
    subst he hb
    refine ⟨free, _, _, hs, ?_, inv⟩
    have hfree (r : Range) (hr : r ∈ free) : r.numPages < n :=
      inv.represents.numPages r hr ▸ hc _ (List.mem_map_of_mem hr)
    exact .inl ⟨hfree, rfl, rfl⟩
  case inr =>
    have ⟨r, hr, hc⟩ := List.mem_map.mp hc
    subst hc
    have ⟨pre, post, hfree⟩ := List.append_of_mem hr
    have hnp := inv.represents.numPages r hr
    subst hfree he
    rw [hnp] at hle
    replace hb : base = (r.last n).base := by rw [hb, State.lastPages, hnp, Range.last]
    subst hb
    refine ⟨_, _, _, hs, .inr (inv.takes hn hle), ?_⟩
    rw [if_neg hb']
    exact inv.take hn hle

theorem step (inv : σ.Invariant usable free) (hn : 1 ≤ n) (hf : usable.length < fuel) :
    ∃ free' σ', σ.step fuel n = some σ' ∧ σ'.Invariant usable free' := by
  have ⟨free', s', base, hs, _, inv⟩ := inv.allocatePages hn hf
  exact ⟨free', _, by simp [Calls.step, hs], inv⟩

theorem run {ns : List Nat} (inv : σ.Invariant usable free) (hn : ∀ n ∈ ns, 1 ≤ n)
    (hf : usable.length < fuel) :
    ∃ free' σ', Execution.run (Calls.step fuel) σ ns = some σ' ∧ σ'.Invariant usable free' := by
  induction ns generalizing σ free
  case nil => exact ⟨free, σ, rfl, inv⟩
  case cons n ns ih =>
    have ⟨_, σ', hs, inv⟩ := inv.step (hn n (by simp)) hf
    have ⟨free', σ'', hr, inv⟩ := ih inv (fun n h => hn n (by simp [h]))
    exact ⟨free', σ'', by simp [Execution.run, hs, hr], inv⟩

end Calls.Invariant
end PhysicalMemoryManagement

namespace KernelMain

open PhysicalMemoryManagement

variable {offset fuel m : Nat} {s : State} {e : MemmapEntry} {entries : List MemmapEntry} {free : List Range}

namespace WellFormed

theorem sublist_cons : (usable entries).Sublist (usable (e :: entries)) :=
  (List.sublist_cons_self ..).filter _

theorem tail (wf : WellFormed offset (e :: entries)) : WellFormed offset entries where
  positive := wf.positive
  page     := wf.page
  aligned  := fun e h => wf.aligned e (sublist_cons.subset h)
  nonempty := fun e h => wf.nonempty e (sublist_cons.subset h)
  sorted   := wf.sorted.sublist sublist_cons
  disjoint := wf.disjoint.sublist sublist_cons
  separate := wf.separate.sublist sublist_cons
  bounded  := fun e h => wf.bounded e (sublist_cons.subset h)

theorem valid (wf : WellFormed offset entries) (h : e ∈ usable entries) : (e.range offset).Valid where
  aligned  := Nat.dvd_add (wf.aligned e h).left wf.page
  nonempty := Nat.div_pos (Nat.le_of_dvd (wf.nonempty e h) (wf.aligned e h).right) (by decide)
  bounded  := by
    have := wf.bounded e h
    have := Nat.mul_div_cancel' (wf.aligned e h).right
    simp only [MemmapEntry.range]
    omega

-- The ranges of two usable entries are neither overlapping nor adjacent.
theorem lt_of_mem (wf : WellFormed offset (e :: entries)) (he : e.type = .usable) {e' : MemmapEntry}
    (h : e' ∈ usable entries) :
    (e.range offset).base + 4096 * (e.range offset).numPages < (e'.range offset).base := by
  have hu : usable (e :: entries) = e :: usable entries := by simp [usable, he]
  have hs := List.rel_of_pairwise_cons (hu ▸ wf.sorted) h
  have hd := List.rel_of_pairwise_cons (hu ▸ wf.disjoint) h
  have hc := List.rel_of_pairwise_cons (hu ▸ wf.separate) h
  have hn := wf.nonempty e' (sublist_cons.subset h)
  have hl := Nat.mul_div_cancel' (wf.aligned e (by simp [hu])).right
  -- The first address of the second range does not belong to the first range.
  have hm := Set.disjoint_right.mp hd (Set.mem_Ico.mpr ⟨le_rfl, Nat.lt_add_of_pos_right hn⟩)
  rw [Set.mem_Ico] at hm
  simp only [MemmapEntry.range]
  omega

end WellFormed

-- The arithmetic of `freeRange` does not overflow.
theorem freeRange_eq (wf : WellFormed offset entries) (h : e ∈ usable entries) :
    freeRange fuel s (wrap (e.base + offset)) (wrap (wrap (e.base + e.length) + offset)) =
    freePages fuel s (e.range offset).base (e.range offset).numPages := by
  have := wf.bounded e h
  have := wf.positive
  have := wf.nonempty e h
  have hs : wrap (e.base + offset) = e.base + offset := by
    simp only [wrap]
    omega
  have hl : wrap (wrap (wrap (e.base + e.length) + offset) + 2 ^ 64 - (e.base + offset)) = e.length := by
    simp only [wrap]
    omega
  rw [freeRange, hs, hl, MemmapEntry.range, PageSize_eq]

-- The loop appends the usable ranges to the free list, one after the other.
theorem foldlM_addEntry (wf : WellFormed offset entries) (h : s.Represents free)
    (ha : ∀ r ∈ free, ∀ e ∈ usable entries, r.base + 4096 * r.numPages < (e.range offset).base)
    (hf : free.length + entries.length ≤ fuel) :
    ∃ s' m', entries.foldlM (addEntry fuel offset) (s, m) = some (s', m') ∧
      s'.Represents (free ++ (usable entries).map (MemmapEntry.range offset)) := by
  induction entries generalizing s free m
  case nil => exact ⟨s, m, rfl, by simpa [usable] using h⟩
  case cons e entries ih =>
    simp only [List.length_cons] at hf
    have hsub {e' : MemmapEntry} (h : e' ∈ usable entries) : e' ∈ usable (e :: entries) :=
      WellFormed.sublist_cons.subset h
    by_cases he : e.type = .usable
    case pos =>
      have hu : usable (e :: entries) = e :: usable entries := by simp [usable, he]
      have hm : e ∈ usable (e :: entries) := by simp [hu]
      have hb : (e.range offset).base ≠ 0 := by
        have := wf.positive
        simp only [MemmapEntry.range]
        omega
      have hl : free.length < fuel := by omega
      have ⟨s', hs, h'⟩ := h.freePages_above (wf.valid hm) hb (fun r hr => ha r hr e hm) hl
      have ha' : ∀ r ∈ free ++ [e.range offset], ∀ e' ∈ usable entries,
          r.base + 4096 * r.numPages < (e'.range offset).base := by
        intro r hr e' he'
        cases List.mem_append.mp hr
        case inl hr => exact ha r hr e' (hsub he')
        case inr hr => exact List.mem_singleton.mp hr ▸ wf.lt_of_mem he he'
      rw [← freeRange_eq wf hm] at hs
      have ⟨s'', m'', hs', h''⟩ := ih (m := e.updateMax m) wf.tail h' ha' (by simp; omega)
      refine ⟨s'', m'', ?_, by simpa [hu] using h''⟩
      simpa [addEntry, he, hs] using hs'
    case neg =>
      have hu : usable (e :: entries) = usable entries := by simp [usable, he]
      have ⟨s'', m'', hs', h''⟩ := ih (m := e.updateMax m) wf.tail h (fun r hr e' h => ha r hr e' (hsub h)) (by omega)
      refine ⟨s'', m'', ?_, by simpa [hu] using h''⟩
      simpa [addEntry, he] using hs'

theorem initByAddingUsablePagesToMemoryManagement_represents (wf : WellFormed offset entries)
    (hf : entries.length ≤ fuel) :
    ∃ s' m, initByAddingUsablePagesToMemoryManagement fuel offset s entries = some (s', m) ∧
      s'.Represents ((usable entries).map (MemmapEntry.range offset)) :=
  foldlM_addEntry wf (State.represents_init s) (by simp) (by simpa using hf)

-- At boot the usable ranges are handed over to the allocator, and every call of `allocatePages` thereafter
-- either fails without any effect or returns pages which nobody else has. All loops terminate.
theorem boot_allocations (wf : WellFormed offset entries) (hf : entries.length < fuel) (s : State) :
    ∃ s₀ m, initByAddingUsablePagesToMemoryManagement fuel offset s entries = some (s₀, m) ∧
      s₀.Represents ((usable entries).map (MemmapEntry.range offset)) ∧
      ∀ ns : List Nat, (∀ n ∈ ns, 1 ≤ n) →
        ∃ σ free, Execution.run (Calls.step fuel) ⟨s₀, []⟩ ns = some σ ∧ σ.memory.Represents free ∧
          ∀ n, 1 ≤ n → ∃ free' s' base,
            allocatePages fuel σ.memory n = some (s', base) ∧ s'.Represents free' ∧
            Allocates ((usable entries).map (MemmapEntry.range offset)) σ.owned free free' n
              σ.memory s' base := by
  have ⟨s₀, m, hs, h⟩ := initByAddingUsablePagesToMemoryManagement_represents (s := s) wf hf.le
  have hl : ((usable entries).map (MemmapEntry.range offset)).length < fuel := by
    rw [List.length_map]
    exact (List.length_filter_le ..).trans_lt hf
  refine ⟨s₀, m, hs, h, fun ns hn => ?_⟩
  have ⟨free, σ, hr, inv⟩ := (Calls.Invariant.start h).run hn hl
  refine ⟨σ, free, hr, inv.represents, fun n hn => ?_⟩
  have ⟨free', s', base, ha, spec, inv'⟩ := inv.allocatePages hn hl
  exact ⟨free', s', base, ha, inv'.represents, spec⟩

-- A memory map with two usable ranges and a reserved page in between.
def twoRanges : List MemmapEntry :=
  [⟨0x1000, 0x2000, .usable⟩, ⟨0x9f000, 0x1000, .reserved⟩, ⟨0x100000, 0x4000, .usable⟩]

-- The lower range is taken as a whole, and then a part of the upper one. There is no range with five pages.
theorem boot_allocations_two : ∃ s₀ m σ free,
    initByAddingUsablePagesToMemoryManagement 4 0xffff800000000000 ⟨fun _ => ⟨0, 0, 0⟩, 0⟩ twoRanges = some (s₀, m) ∧
    s₀.Represents [⟨0xffff800000001000, 2⟩, ⟨0xffff800000100000, 4⟩] ∧
    Execution.run (Calls.step 4) ⟨s₀, []⟩ [2] = some σ ∧ σ.owned = [⟨0xffff800000001000, 2⟩] ∧
    (∃ free' s', allocatePages 4 σ.memory 3 = some (s', 0xffff800000101000) ∧ s'.Represents free' ∧
      Takes [⟨0xffff800000001000, 2⟩, ⟨0xffff800000100000, 4⟩] σ.owned free free' 3 0xffff800000101000) ∧
    allocatePages 4 σ.memory 5 = some (σ.memory, 0) := by
  have wf : WellFormed 0xffff800000000000 twoRanges := by
    refine ⟨by decide, by decide, by decide, by decide, by decide, ?_, by decide, by decide⟩
    simp [usable, twoRanges, Set.Ico_disjoint_Ico]
  obtain ⟨s₀, m, hs, h, hcalls⟩ := boot_allocations wf (show 3 < 4 by decide) ⟨fun _ => ⟨0, 0, 0⟩, 0⟩
  obtain ⟨σ, free, hr, -, hnext⟩ := hcalls [2] (by decide)
  obtain ⟨free₃, s₃, base₃, ha₃, hrep, ht₃⟩ := hnext 3 (by decide)
  obtain ⟨_, s₅, base₅, ha₅, -, ht₅⟩ := hnext 5 (by decide)
  -- What is returned by the calls.
  have hd : ∃ x ∈ initByAddingUsablePagesToMemoryManagement 4 0xffff800000000000 ⟨fun _ => ⟨0, 0, 0⟩, 0⟩ twoRanges,
      ∃ σ ∈ Execution.run (Calls.step 4) ⟨x.fst, []⟩ [2], σ.owned = [⟨0xffff800000001000, 2⟩] ∧
        (allocatePages 4 σ.memory 3).map Prod.snd = some 0xffff800000101000 ∧
        (allocatePages 4 σ.memory 5).map Prod.snd = some 0 := by decide +kernel
  obtain ⟨x, hx, σ', hσ', ho, h₃, h₅⟩ := hd
  cases hs.symm.trans hx
  cases hr.symm.trans hσ'
  rw [ha₃] at h₃
  rw [ha₅] at h₅
  cases h₃
  cases h₅
  have htakes := ht₃.resolve_left fun h => absurd h.right.left (by decide)
  have hfails := ht₅.resolve_right fun h => h.found rfl
  refine ⟨s₀, m, σ, free, hs, h, hr, ho, ⟨free₃, s₃, ha₃, hrep, htakes⟩, ?_⟩
  rw [ha₅, hfails.right.right]

end KernelMain
