import Xesual.PhysicalMemory.Theorems.Link

namespace PhysicalMemoryManagement

open Function Linked

section FindPosition

variable {s : State} {base : Nat}

-- The loop splits the free list into the chunks that do not lie above `base` and a remainder that starts
-- above `base`.
theorem findPosition_spec {fuel prev p x y : Nat} {cs : List Nat} (h : Chain s.next 0 p cs)
    (hf : findPosition s base fuel prev p = some (x, y)) :
    ∃ pre post, cs = pre ++ post ∧ (∀ c ∈ pre, c ≤ base) ∧ (∀ c ∈ post.head?, base < c) ∧
      x = pre.getLastD prev ∧ y = post.headD 0 := by
  induction fuel generalizing prev p cs
  case zero => simp [findPosition] at hf
  case succ ih =>
    cases cs
    case nil =>
      simp only [Chain, Segment.nil_iff] at h
      simp only [findPosition, h, ↓reduceIte, Option.some.injEq, Prod.mk.injEq] at hf
      exact ⟨[], [], by simp_all⟩
    case cons c cs =>
      have ⟨hp, hc, h⟩ := h
      subst hp
      simp only [findPosition, hc, ↓reduceIte] at hf
      split at hf
      case isTrue hb =>
        simp only [Option.some.injEq, Prod.mk.injEq] at hf
        exact ⟨[], p :: cs, by simp_all⟩
      case isFalse hb =>
        have ⟨pre, post, hcs, hpre, hpost, hx, hy⟩ := ih h hf
        refine ⟨p :: pre, post, by simp [hcs], ?_, hpost, by rw [hx, List.getLastD_cons], hy⟩
        simpa using ⟨Nat.not_lt.mp hb, hpre⟩

theorem findPosition_isSome {fuel prev p : Nat} {cs : List Nat} (h : Chain s.next 0 p cs)
    (hl : cs.length < fuel) : (findPosition s base fuel prev p).isSome := by
  induction fuel generalizing prev p cs
  case zero => omega
  case succ ih =>
    cases cs
    case nil =>
      simp only [Chain, Segment.nil_iff] at h
      simp [findPosition, h]
    case cons c cs =>
      have ⟨hp, hc, h⟩ := h
      subst hp
      simp only [findPosition, hc, ↓reduceIte]
      split
      case isTrue  => rfl
      case isFalse => exact ih h (by simpa using hl)

end FindPosition

namespace State

namespace FreeList

variable {s s' : State} {cs : List Nat} {r : Range} {fuel : Nat}

theorem not_mem_pages (fl : s.FreeList cs) (hd : Disjoint r.pages s.covered) {c : Nat} (h : c ∈ cs) :
    c ∉ r.pages :=
  fun hc => Set.disjoint_left.mp hd hc (fl.mem_covered h)

theorem base_not_mem (fl : s.FreeList cs) (v : r.Valid) (hd : Disjoint r.pages s.covered) : r.base ∉ cs :=
  fun h => fl.not_mem_pages hd h v.base_mem

-- Clearing a range that is disjoint from the free list does not affect the list.
theorem clear (fl : s.FreeList cs) (v : r.Valid) (hd : Disjoint r.pages s.covered) :
    (s.clear r.base r.numPages).FreeList cs := by
  refine fl.of_sublist (.refl _) ?_ ?_ ?_
  case refine_1 => exact fun _ h => clear_numPages v <| fl.not_mem_pages hd h
  case refine_2 => exact fl.chain.congr (fun _ h => clear_next v <| fl.not_mem_pages hd h)
  case refine_3 =>
    intro c hc hn
    rw [clear_next v <| fl.not_mem_pages hd hc] at hn ⊢
    rw [clear_prev v <| fl.not_mem_pages hd <| fl.next_mem hc hn]
    exact fl.linked c hc hn

-- The three positions at which a freed range can lie: the free list is empty, the range lies below the
-- head of the list, or it lies behind some chunk `a`.
theorem freePages_cases (fl : s.FreeList cs) (v : r.Valid) (hd : Disjoint r.pages s.covered)
    (h : freePages fuel s r.base r.numPages = some s') :
    (cs = [] ∧ s' = (s.clear r.base r.numPages).setFreeList r.base) ∨
    (∃ d ds, cs = d :: ds ∧ r.base < d ∧
      s' = (s.clear r.base r.numPages).link r.base r.numPages 0 d) ∨
    (∃ pre a post, cs = pre ++ a :: post ∧ a < r.base ∧ (∀ d ∈ post, r.base < d) ∧
      s' = (s.clear r.base r.numPages).link r.base r.numPages a (post.headD 0)) := by
  by_cases hn : s.freeList = 0 <;> simp only [freePages, clear_freeList, hn, ↓reduceIte] at h
  case pos =>
    injection h with h
    exact .inl ⟨fl.chain.eq_nil_iff.mpr hn, h.symm⟩
  case neg =>
    have ⟨⟨x, y⟩, hf, h⟩ := Option.map_eq_some_iff.mp h
    have ⟨pre, post, hcs, hpre, hpost, hx, hy⟩ := findPosition_spec (fl.clear v hd).chain hf
    subst hcs hx hy
    refine .inr ?_
    cases List.eq_nil_or_concat pre
    case inl hp =>
      subst hp
      cases post
      case nil  => exact absurd (fl.chain.eq_nil_iff.mp rfl) hn
      case cons => exact .inl ⟨_, _, rfl, hpost _ rfl, by simp [← h]⟩
    case inr hp =>
      have ⟨pre, a, hp⟩ := hp
      subst hp
      refine .inr ⟨pre, a, post, by simp, ?_, ?_, by simp [← h]⟩
      case refine_1 =>
        have ha : a ≠ r.base := fun ha => fl.base_not_mem v hd (by simp [← ha])
        exact Nat.lt_of_le_of_ne (hpre a (by simp)) ha
      case refine_2 =>
        cases post
        case nil => simp
        case cons d ds =>
          have hlt := hpost d rfl
          have hs := List.pairwise_append.mp fl.sorted |>.right.left
          intro e he
          cases he
          case head   => exact hlt
          case tail he => exact hlt.trans (List.rel_of_pairwise_cons hs he)

theorem freePages_isSome (fl : s.FreeList cs) (v : r.Valid) (hd : Disjoint r.pages s.covered)
    (hf : cs.length < fuel) : (freePages fuel s r.base r.numPages).isSome := by
  by_cases hn : s.freeList = 0 <;> simp only [freePages, clear_freeList, hn, ↓reduceIte]
  case pos => rfl
  case neg => simpa [clear_freeList] using findPosition_isSome (fl.clear v hd).chain hf

theorem covered_clear (fl : s.FreeList cs) (v : r.Valid) (hd : Disjoint r.pages s.covered) :
    (s.clear r.base r.numPages).covered = s.covered := by
  ext a
  rw [(fl.clear v hd).covered_iff, fl.covered_iff]
  refine exists_congr fun c => and_congr_right fun hc => ?_
  rw [pages, pages, clear_numPages v <| fl.not_mem_pages hd hc]

end FreeList

-- If the free list is empty then the freed range becomes its only chunk. A range at address `0` is taken
-- for the null pointer, which leaves the list empty.
theorem freeList_of_empty {s : State} {r : Range} (v : r.Valid) (h : r.base ≠ 0) :
    ((s.clear r.base r.numPages).setFreeList r.base).FreeList [r.base] where
  chain    := ⟨rfl, h, clear_next_base v h⟩
  ordered  := by simp
  linked   := by
    intro c hc hn
    simp only [List.mem_singleton] at hc
    exact absurd (clear_next_base v h) (hc ▸ hn)
  aligned  := by simpa using v.aligned
  nonempty := by
    intro c hc
    cases List.mem_singleton.mp hc
    exact (clear_numPages_base (s := s)).symm ▸ v.nonempty
  bounded  := by
    intro c hc
    cases List.mem_singleton.mp hc
    exact (clear_numPages_base (s := s)).symm ▸ v.bounded

theorem covered_of_empty {s : State} {r : Range} (v : r.Valid) (h : r.base ≠ 0) :
    ((s.clear r.base r.numPages).setFreeList r.base).covered = r.pages := by
  ext a
  simp [(freeList_of_empty (s := s) v h).covered_iff, pages, Range.pages, clear_numPages_base]

-- The range `r` has been cleared and lies below the head `d` of the free list. Then the list does not
-- change: the new chunk points to the list, but `Memory.freeList` does not point to the new chunk.
section Below

variable {s : State} {d : Nat} {ds : List Nat} {r : Range}

theorem link_below_next (hd : d ≠ r.base) {c : Nat} (h : c ≠ r.base) :
    (s.link r.base r.numPages 0 d).next c = s.next c := by
  simp [link_next hd, h]

theorem freeList_of_below (fl : s.FreeList (d :: ds)) (hr : r.base ∉ d :: ds) (hd : r.base < d) :
    (s.link r.base r.numPages 0 d).FreeList (d :: ds) := by
  have hne {c : Nat} (h : c ∈ d :: ds) : c ≠ r.base := ne_of_mem_of_not_mem h hr
  have hnx {c : Nat} (h : c ∈ d :: ds) : (s.link r.base r.numPages 0 d).next c = s.next c :=
    link_below_next (hne (by simp)) (hne h)
  refine fl.of_sublist (.refl _) ?_ ?_ ?_
  case refine_1 => exact fun _ h => link_numPages (hne h) (fl.ne_null h)
  case refine_2 => rw [link_freeList]; exact fl.chain.congr (fun _ h => hnx h)
  case refine_3 =>
    intro c hc hn
    rw [hnx hc] at hn ⊢
    have hm := fl.next_mem hc hn
    -- The head of the list is no other chunk's successor, so the assignment to its `prev` is irrelevant.
    have hh : s.next c ≠ d := by
      have := fl.lt_next hc hn
      cases hc
      case head   => omega
      case tail h => have := List.rel_of_pairwise_cons fl.sorted h; omega
    have hd : d ≠ 0 := by omega
    simpa [link_prev, hne hm, hh, hd] using fl.linked c hc hn

theorem covered_of_below (fl : s.FreeList (d :: ds)) (hr : r.base ∉ d :: ds) (hd : r.base < d) :
    (s.link r.base r.numPages 0 d).covered = s.covered := by
  ext a
  rw [(freeList_of_below fl hr hd).covered_iff, fl.covered_iff]
  refine exists_congr fun c => and_congr_right fun hc => ?_
  rw [pages, pages, link_numPages (ne_of_mem_of_not_mem hc hr) (fl.ne_null hc)]

end Below

-- The range `r` has been cleared and lies behind the chunk `a` and before the chunks `post`.
structure Behind (s : State) (r : Range) (pre : List Nat) (a : Nat) (post : List Nat) : Prop where
  freeList : s.FreeList (pre ++ a :: post)
  valid    : r.Valid
  numPages : s.numPages r.base = r.numPages
  above    : a + 4096 * s.numPages a ≤ r.base
  below    : ∀ d ∈ post, r.base + 4096 * r.numPages ≤ d

namespace Behind

variable {s : State} {r : Range} {pre post : List Nat} {a : Nat}

-- The chunks that follow the freed range once it is linked in: an adjacent successor is absorbed.
def rest (r : Range) (post : List Nat) : List Nat :=
  if AdjacentNext r.base r.numPages (post.headD 0) then post.tail else post

theorem rest_sublist (r : Range) (post : List Nat) : (rest r post).Sublist post := by
  unfold rest
  split
  case isTrue  => exact List.tail_sublist _
  case isFalse => exact List.Sublist.refl _

theorem rest_subset {c : Nat} (h : c ∈ rest r post) : c ∈ post :=
  (rest_sublist r post).subset h

theorem lt_base (b : s.Behind r pre a post) : a < r.base := by
  have := b.freeList.nonempty a (by simp)
  have := b.above
  omega

theorem lt_of_mem_pre (b : s.Behind r pre a post) {c : Nat} (h : c ∈ pre) : c < a :=
  List.pairwise_append.mp b.freeList.sorted |>.right.right c h a (by simp)

theorem lt_of_mem_post (b : s.Behind r pre a post) {c : Nat} (h : c ∈ post) : r.base < c := by
  have := b.below c h
  have := b.valid.nonempty
  omega

theorem headD_ne_base (b : s.Behind r pre a post) : post.headD 0 ≠ r.base := by
  cases post
  case nil  => have := b.lt_base; simp; omega
  case cons => have := b.lt_of_mem_post (List.mem_cons_self ..); simp; omega

theorem chain_rest (b : s.Behind r pre a post) :
    Chain s.next 0 (s.successor r.base r.numPages (post.headD 0)) (rest r post) := by
  have h := b.freeList.chain
  rw [show pre ++ a :: post = (pre ++ [a]) ++ post by simp] at h
  have ⟨_, h⟩ := h.head_of_append
  unfold rest successor
  split
  case isTrue ha =>
    cases post
    case nil  => exact absurd rfl ha.left
    case cons => exact h.right.right
  case isFalse => exact h

theorem chain (b : s.Behind r pre a post) :
    Chain (s.link r.base r.numPages a (post.headD 0)).next 0
      (s.link r.base r.numPages a (post.headD 0)).freeList (pre ++ a :: r.base :: rest r post) := by
  have hlt := b.lt_base
  have ha : a ≠ 0 := b.freeList.ne_null (by simp)
  have h := b.freeList.chain
  rw [show pre ++ a :: post = (pre ++ [a]) ++ post by simp] at h
  rw [link_freeList, link_next b.headD_ne_base, if_pos ha, update_comm hlt.ne']
  refine Chain.insert h.head_of_append.left b.chain_rest ?_ ?_ ?_ hlt.ne ?_ ?_
  case refine_1 => omega
  case refine_2 => exact fun h => (b.lt_of_mem_pre h).false
  case refine_3 => exact fun h => (hlt.trans <| b.lt_of_mem_post <| rest_subset h).false
  case refine_4 => exact fun h => (hlt.trans <| b.lt_of_mem_pre h).false
  case refine_5 => exact fun h => (b.lt_of_mem_post <| rest_subset h).false

theorem adjacentPrev_iff (b : s.Behind r pre a post) :
    s.AdjacentPrev r.base a ↔ a + 4096 * s.numPages a = r.base := by
  have := b.valid.bounded
  have := b.valid.nonempty
  have h := b.freeList.bounded a (by simp)
  exact State.adjacentPrev_iff (b.freeList.ne_null (by simp)) h b.lt_base (by omega)

theorem adjacentNext_iff {d : Nat} {ds : List Nat} (b : s.Behind r pre a (d :: ds)) :
    AdjacentNext r.base r.numPages d ↔ r.base + 4096 * r.numPages = d := by
  have := b.freeList.nonempty d (by simp)
  have := b.freeList.bounded d (by simp)
  exact State.adjacentNext_iff b.valid (b.freeList.ne_null (by simp)) (by omega)

theorem pages_eq (b : s.Behind r pre a post) {c : Nat} (h : c ∈ pre ∨ c ∈ post) :
    (s.link r.base r.numPages a (post.headD 0)).pages c = s.pages c := by
  have := b.lt_base
  have : c ≠ r.base ∧ c ≠ a := by
    cases h
    case inl h => have := b.lt_of_mem_pre h; omega
    case inr h => have := b.lt_of_mem_post h; omega
  rw [pages, pages, link_numPages this.left this.right]

-- The predecessor covers the freed range as well if it is adjacent.
theorem pages_prev (b : s.Behind r pre a post) :
    (s.link r.base r.numPages a (post.headD 0)).pages a =
    if s.AdjacentPrev r.base a then s.pages a ∪ r.pages else s.pages a := by
  have := b.valid.bounded
  rw [pages, link_numPages_prev b.lt_base.ne]
  split
  case isFalse => rfl
  case isTrue h =>
    have h := b.adjacentPrev_iff.mp h
    ext x
    simp only [wrap, pages, Range.pages, Set.mem_union, Set.mem_Ico]
    omega

-- The new chunk covers the freed range and the successor that it absorbs.
theorem mem_pages_base_or_rest (b : s.Behind r pre a post) {x : Nat} :
    (x ∈ (s.link r.base r.numPages a (post.headD 0)).pages r.base ∨ ∃ c ∈ rest r post, x ∈ s.pages c) ↔
    (x ∈ r.pages ∨ ∃ c ∈ post, x ∈ s.pages c) := by
  rw [pages, link_numPages_base b.lt_base.ne, b.numPages, rest]
  split
  case isFalse => rfl
  case isTrue ha =>
    cases post
    case nil => exact absurd rfl ha.left
    case cons d ds =>
      have h := b.adjacentNext_iff.mp ha
      have := b.freeList.bounded d (by simp)
      simp only [wrap, pages, Range.pages, List.headD_cons, List.tail_cons, List.exists_mem_cons_iff,
        Set.mem_Ico, ← or_assoc]
      refine or_congr_left ?_
      omega

-- No page is lost: the free list covers what it covered before, and the freed range.
theorem covered (b : s.Behind r pre a post) :
    (s.link r.base r.numPages a (post.headD 0)).covered = s.covered ∪ r.pages := by
  ext x
  have hpre : (∃ c ∈ pre, x ∈ (s.link r.base r.numPages a (post.headD 0)).pages c) ↔
      ∃ c ∈ pre, x ∈ s.pages c :=
    exists_congr fun _ => and_congr_right fun h => by rw [b.pages_eq (.inl h)]
  have hrest : (∃ c ∈ rest r post, x ∈ (s.link r.base r.numPages a (post.headD 0)).pages c) ↔
      ∃ c ∈ rest r post, x ∈ s.pages c :=
    exists_congr fun _ => and_congr_right fun h => by rw [b.pages_eq (.inr <| rest_subset h)]
  have hprev : x ∈ (s.link r.base r.numPages a (post.headD 0)).pages a →
      x ∈ s.pages a ∨ x ∈ r.pages := by
    rw [b.pages_prev]
    split
    case isTrue  => exact id
    case isFalse => exact .inl
  have hprev' : x ∈ s.pages a → x ∈ (s.link r.base r.numPages a (post.headD 0)).pages a := by
    rw [b.pages_prev]
    split
    case isTrue  => exact .inl
    case isFalse => exact id
  rw [Set.mem_union, covered_iff_of_chain b.chain, b.freeList.covered_iff]
  simp only [List.mem_append, List.mem_cons, or_and_right, exists_or, exists_eq_left, hpre, hrest,
    b.mem_pages_base_or_rest]
  constructor
  case mp =>
    rintro (h | h | h | h)
    · exact .inl <| .inl h
    · exact (hprev h).imp (.inr ∘ .inl) id
    · exact .inr h
    · exact .inl <| .inr <| .inr h
  case mpr =>
    rintro ((h | h | h) | h)
    · exact .inl h
    · exact .inr <| .inl <| hprev' h
    · exact .inr <| .inr <| .inr h
    · exact .inr <| .inr <| .inl h

theorem numPages_eq (b : s.Behind r pre a post) (hp : a + 4096 * s.numPages a ≠ r.base) (c : Nat)
    (h : c ∈ pre ++ a :: post) : (s.link r.base r.numPages a (post.headD 0)).numPages c = s.numPages c := by
  have hlt := b.lt_base
  by_cases hc : c = a
  case pos =>
    subst hc
    rw [link_numPages_prev hlt.ne, if_neg <| mt b.adjacentPrev_iff.mp hp]
  case neg =>
    refine link_numPages ?_ hc
    simp only [List.mem_append, List.mem_cons, hc, false_or] at h
    cases h
    case inl h => have := b.lt_of_mem_pre h; omega
    case inr h => have := b.lt_of_mem_post h; omega

-- The new chunk extends up to the end of the freed range, or of the successor that it absorbs.
theorem numPages_base (b : s.Behind r pre a post)
    (hn : AdjacentNext r.base r.numPages (post.headD 0) → post.tail = []) :
    r.numPages ≤ (s.link r.base r.numPages a (post.headD 0)).numPages r.base ∧
    r.base + 4096 * (s.link r.base r.numPages a (post.headD 0)).numPages r.base ≤ 2 ^ 64 ∧
    ∀ c ∈ rest r post,
      r.base + 4096 * (s.link r.base r.numPages a (post.headD 0)).numPages r.base ≤ c := by
  rw [link_numPages_base b.lt_base.ne, b.numPages, rest]
  split
  case isFalse => exact ⟨le_rfl, b.valid.bounded, b.below⟩
  case isTrue ha =>
    cases post
    case nil => exact absurd rfl ha.left
    case cons d ds =>
      have h := b.adjacentNext_iff.mp ha
      have := b.freeList.bounded d (by simp)
      rw [hn ha]
      simp only [wrap, List.headD_cons, List.not_mem_nil, false_implies, implies_true, and_true]
      omega

theorem linked (b : s.Behind r pre a post)
    (hn : AdjacentNext r.base r.numPages (post.headD 0) → post.tail = []) {c : Nat}
    (hc : c = r.base ∨ c ∈ pre ++ a :: post)
    (h : (s.link r.base r.numPages a (post.headD 0)).next c ≠ 0) :
    (s.link r.base r.numPages a (post.headD 0)).prev
      ((s.link r.base r.numPages a (post.headD 0)).next c) = c := by
  have hlt := b.lt_base
  have ha : a ≠ 0 := b.freeList.ne_null (by simp)
  have hb := b.headD_ne_base
  rw [link_next hb, if_pos ha] at h ⊢
  rw [link_prev]
  by_cases hca : c = a
  case pos => subst hca; simp
  case neg =>
    rw [update_of_ne hca] at h ⊢
    by_cases hcb : c = r.base
    case pos =>
      subst hcb
      rw [update_self] at h ⊢
      -- If the successor is absorbed then it is the last chunk, so that there is no new successor.
      have hadj : ¬AdjacentNext r.base r.numPages (post.headD 0) := by
        intro hadj
        have hr := b.chain_rest
        rw [rest, if_pos hadj, hn hadj] at hr
        exact h hr
      rw [successor, if_neg hadj] at h ⊢
      rw [update_of_ne hb, if_pos h, update_self]
    case neg =>
      rw [update_of_ne hcb] at h ⊢
      replace hc := hc.resolve_left hcb
      have hl := b.freeList.linked c hc h
      have hnb : s.next c ≠ r.base := by
        intro hnb
        have := b.freeList.next_mem hc h
        rw [hnb] at this
        simp only [List.mem_append, List.mem_cons] at this
        obtain h | h | h := this
        · have := b.lt_of_mem_pre h; omega
        · omega
        · have := b.lt_of_mem_post h; omega
      -- Only `a` is the predecessor of the old successor.
      have hnh : s.next c ≠ post.headD 0 := by
        intro hnh
        have hna := b.freeList.chain.next_eq
        have := b.freeList.linked a (by simp) (by rw [hna, ← hnh]; exact h)
        rw [hna, ← hnh, hl] at this
        exact hca this
      rw [update_of_ne hnb]
      split
      case isTrue  => rw [update_of_ne hnh, hl]
      case isFalse => exact hl

-- The free list stays well-formed, unless one of the two adjacencies is treated incorrectly.
theorem freeList_link (b : s.Behind r pre a post) (hp : a + 4096 * s.numPages a ≠ r.base)
    (hn : AdjacentNext r.base r.numPages (post.headD 0) → post.tail = []) :
    (s.link r.base r.numPages a (post.headD 0)).FreeList (pre ++ a :: r.base :: rest r post) := by
  have hlt := b.lt_base
  have hnp := b.numPages_eq hp
  have ⟨hnb, hnb', hnb''⟩ := b.numPages_base hn
  -- A chunk of the new list is the freed range or a chunk of the old list.
  have hm {c : Nat} (h : c ∈ pre ++ a :: r.base :: rest r post) : c = r.base ∨ c ∈ pre ++ a :: post := by
    simp only [List.mem_append, List.mem_cons] at h ⊢
    have := @rest_subset r post c
    tauto
  constructor
  case chain   => exact b.chain
  case linked  => exact fun c hc => b.linked hn (hm hc)
  case ordered =>
    have ⟨hpre, hpost, hcross⟩ := List.pairwise_append.mp b.freeList.ordered
    simp only [List.pairwise_append, List.pairwise_cons, List.mem_cons]
    refine ⟨?_, ⟨?_, ?_, ?_⟩, ?_⟩
    case refine_1 => exact hpre.imp_of_mem (fun h _ => by rw [hnp _ (by simp [h])]; exact id)
    case refine_2 =>
      rw [hnp a (by simp)]
      rintro c (rfl | h)
      · exact b.above
      · exact List.rel_of_pairwise_cons hpost (rest_subset h)
    case refine_3 => exact hnb''
    case refine_4 =>
      have := List.Pairwise.sublist (rest_sublist r post) (List.Pairwise.of_cons hpost)
      exact this.imp_of_mem (fun h _ => by rw [hnp _ (by simp [rest_subset h])]; exact id)
    case refine_5 =>
      intro c hc e he
      rw [hnp c (by simp [hc])]
      have := hcross c hc a (by simp)
      obtain rfl | rfl | he := he
      · exact this
      · omega
      · exact hcross c hc e (by simp [rest_subset he])
  case aligned =>
    intro c hc
    obtain rfl | hc := hm hc
    · exact b.valid.aligned
    · exact b.freeList.aligned c hc
  case nonempty =>
    intro c hc
    obtain rfl | hc := hm hc
    · have := b.valid.nonempty
      omega
    · exact hnp c hc ▸ b.freeList.nonempty c hc
  case bounded =>
    intro c hc
    obtain rfl | hc := hm hc
    · exact hnb'
    · exact (hnp c hc).symm ▸ b.freeList.bounded c hc

end Behind

namespace FreeList

variable {s s' : State} {cs pre post : List Nat} {r : Range} {a fuel : Nat}

theorem behind (fl : s.FreeList (pre ++ a :: post)) (v : r.Valid) (hd : Disjoint r.pages s.covered)
    (ha : a < r.base) (hp : ∀ d ∈ post, r.base < d) :
    (s.clear r.base r.numPages).Behind r pre a post where
  freeList := fl.clear v hd
  valid    := v
  numPages := clear_numPages_base
  above    := by
    rw [clear_numPages v <| fl.not_mem_pages hd (by simp)]
    by_contra h
    have : r.base ∈ s.pages a := by simp only [State.pages, Set.mem_Ico]; omega
    exact Set.disjoint_left.mp hd v.base_mem (fl.covered_iff.mpr ⟨a, by simp, this⟩)
  below    := by
    intro d h
    have := hp d h
    have := fl.not_mem_pages hd (c := d) (by simp [h])
    simp only [Range.pages, Set.mem_Ico] at this
    omega

-- The `prev` field of the head of the list is not affected by a range that is freed behind it.
theorem prev_link (fl : s.FreeList (pre ++ a :: post)) (v : r.Valid) (hd : Disjoint r.pages s.covered)
    (ha : a < r.base) (hp : ∀ d ∈ post, r.base < d) :
    ((s.clear r.base r.numPages).link r.base r.numPages a (post.headD 0)).prev s.freeList =
    s.prev s.freeList := by
  have hf := fl.freeList_le (c := a) (by simp)
  have hm := fl.freeList_mem (by simp)
  have hn : s.freeList ≠ post.headD 0 := by
    cases post
    case nil  => simpa using fl.ne_null hm
    case cons => have := hp _ (List.mem_cons_self ..); simp only [List.headD_cons]; omega
  have hcl := clear_prev (s := s) v (fl.not_mem_pages hd hm)
  rw [link_prev, update_of_ne (by omega)]
  split
  case isTrue  => rw [update_of_ne hn, hcl]
  case isFalse => exact hcl

-- The freed pages arrive in the free list exactly if the list is empty or starts below them. The null
-- pointer is `0`, so both cases are covered by comparing addresses.
theorem covered_freePages_iff (fl : s.FreeList cs) (v : r.Valid) (hd : Disjoint r.pages s.covered)
    (h : freePages fuel s r.base r.numPages = some s') :
    s'.covered = s.covered ∪ r.pages ↔ s.freeList < r.base := by
  obtain ⟨hcs, hs⟩ | ⟨d, ds, hcs, hlt, hs⟩ | ⟨pre, a, post, hcs, hlt, hpost, hs⟩ :=
    fl.freePages_cases v hd h
  all_goals subst hcs hs
  case inl =>
    have hn := fl.chain.eq_nil_iff.mp rfl
    rw [hn, covered_eq_empty hn, Set.empty_union]
    by_cases hb : r.base = 0
    case pos =>
      rw [covered_eq_empty hb]
      refine iff_of_false ?_ (by omega)
      exact fun he => (Set.mem_empty_iff_false _).mp (he ▸ v.base_mem)
    case neg =>
      exact iff_of_true (covered_of_empty v hb) (by omega)
  case inr.inl =>
    rw [covered_of_below (fl.clear v hd) (fl.base_not_mem v hd) hlt, fl.covered_clear v hd, fl.chain.left]
    refine iff_of_false ?_ (by omega)
    intro he
    exact Set.disjoint_left.mp hd v.base_mem (he ▸ Set.mem_union_right _ v.base_mem)
  case inr.inr =>
    rw [(fl.behind v hd hlt hpost).covered, fl.covered_clear v hd]
    exact iff_of_true rfl <| (fl.freeList_le (by simp)).trans_lt hlt

end FreeList

-- Freeing a range terminates, and no page is lost exactly if the free list does not start above the range.
theorem freePages_covered {s : State} {r : Range} (wf : s.WellFormed) (v : r.Valid)
    (hd : Disjoint r.pages s.covered) :
    (∃ fuel, (freePages fuel s r.base r.numPages).isSome) ∧
    ∀ fuel s', freePages fuel s r.base r.numPages = some s' →
      (s'.covered = s.covered ∪ r.pages ↔ s.freeList < r.base) := by
  have ⟨cs, fl⟩ := wf
  exact ⟨⟨cs.length + 1, fl.freePages_isSome v hd (Nat.lt_succ_self _)⟩,
    fun fuel s' h => fl.covered_freePages_iff v hd h⟩

-- The free list starts with the page at `0xffff800000200000`, and a page above it is freed.
theorem freePages_covered_above : ∃ fuel s',
    freePages fuel (single ⟨0xffff800000200000, 1⟩) 0xffff800000300000 2 = some s' ∧
    s'.covered = (single ⟨0xffff800000200000, 1⟩).covered ∪ Set.Ico 0xffff800000300000 0xffff800000302000 := by
  have wf : (single ⟨0xffff800000200000, 1⟩).WellFormed := ⟨_, single_freeList (by decide) (by decide)⟩
  have hd : Disjoint (Range.mk 0xffff800000300000 2).pages (single ⟨0xffff800000200000, 1⟩).covered := by
    rw [single_covered (by decide) (by decide)]
    decide
  have ⟨⟨fuel, hs⟩, h⟩ := freePages_covered wf (by decide) hd
  have ⟨s', hs⟩ := Option.isSome_iff_exists.mp hs
  exact ⟨fuel, s', hs, (h fuel s' hs).mpr (by decide)⟩

-- If a page is freed that lies below the head of the free list, then it is lost.
theorem freePages_not_covered : ¬∀ (s : State) (r : Range), s.WellFormed → r.Valid →
    Disjoint r.pages s.covered → ∀ fuel s', freePages fuel s r.base r.numPages = some s' →
      s'.covered = s.covered ∪ r.pages := by
  intro h
  have fl : (single ⟨0xffff800000200000, 1⟩).FreeList [0xffff800000200000] :=
    single_freeList (by decide) (by decide)
  have v : (Range.mk 0xffff800000100000 1).Valid := by decide
  have hd : Disjoint (Range.mk 0xffff800000100000 1).pages (single ⟨0xffff800000200000, 1⟩).covered := by
    rw [single_covered (by decide) (by decide)]
    decide
  have hf : [0xffff800000200000].length < 2 := by decide
  have ⟨s', hs⟩ := Option.isSome_iff_exists.mp <| fl.freePages_isSome v hd hf
  have := fl.covered_freePages_iff v hd hs |>.mp (h _ _ ⟨_, fl⟩ v hd 2 s' hs)
  exact absurd this (by decide)

end State
end PhysicalMemoryManagement
