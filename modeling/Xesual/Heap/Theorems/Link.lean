import Xesual.Heap.Theorems.Allocate

namespace Alloc

open Linked Memory

namespace State

variable {s : State} {a b c d n v : BitVec 64}

-- Writing to a header does not affect the headers that are disjoint from it.
section Frame

variable (h : Disjoint (header d) (header c))

include h

@[simp] theorem setNext_next_of_disjoint : (s.setNext c v).next d = s.next d :=
  next_of_changes Changes.store (h.mono_right next_subset)

@[simp] theorem setNext_prev_of_disjoint : (s.setNext c v).prev d = s.prev d :=
  prev_of_changes Changes.store (h.mono_right next_subset)

@[simp] theorem setNext_numBytes_of_disjoint : (s.setNext c v).numBytes d = s.numBytes d :=
  numBytes_of_changes Changes.store (h.mono_right next_subset)

@[simp] theorem setPrev_next_of_disjoint : (s.setPrev c v).next d = s.next d :=
  next_of_changes Changes.store (h.mono_right <| word_subset (by decide))

@[simp] theorem setPrev_prev_of_disjoint : (s.setPrev c v).prev d = s.prev d :=
  prev_of_changes Changes.store (h.mono_right <| word_subset (by decide))

@[simp] theorem setPrev_numBytes_of_disjoint : (s.setPrev c v).numBytes d = s.numBytes d :=
  numBytes_of_changes Changes.store (h.mono_right <| word_subset (by decide))

@[simp] theorem setNumBytes_next_of_disjoint : (s.setNumBytes c v).next d = s.next d :=
  next_of_changes Changes.store (h.mono_right <| word_subset (by decide))

@[simp] theorem setNumBytes_prev_of_disjoint : (s.setNumBytes c v).prev d = s.prev d :=
  prev_of_changes Changes.store (h.mono_right <| word_subset (by decide))

@[simp] theorem setNumBytes_numBytes_of_disjoint : (s.setNumBytes c v).numBytes d = s.numBytes d :=
  numBytes_of_changes Changes.store (h.mono_right <| word_subset (by decide))

end Frame

section Link

theorem linkNext_of_null : s.linkNext b n 0 = s.setNext b 0 := by
  simp [linkNext]

theorem linkNext_of_ne (hd : d ≠ 0) (h : Disjoint (header b) (header d)) (hadj : b + n ≠ d) :
    s.linkNext b n d = (s.setNext b d).setPrev d b := by
  simp only [linkNext, setNext_next, setPrev_next_of_disjoint h]
  rw [if_pos hd, if_neg hadj]

theorem linkNext_of_eq (hd : d ≠ 0) (h : Disjoint (header b) (header d)) (hadj : b + n = d) :
    s.linkNext b n d =
      (((s.setNext b d).setPrev d b).setNumBytes b (s.numBytes b + s.numBytes d)).setNext b (s.next d) := by
  simp only [linkNext, setNext_next, setPrev_next_of_disjoint h, setNumBytes_next, setPrev_numBytes_of_disjoint h,
    setNext_numBytes, setPrev_numBytes, setNumBytes_next_of_disjoint h.symm, setPrev_next,
    setNext_next_of_disjoint h.symm, setNext_numBytes_of_disjoint h.symm]
  rw [if_pos hd, if_pos hadj]

theorem linkPrev_of_null : s.linkPrev b n 0 = s.setPrev b 0 := by
  simp [linkPrev]

theorem linkPrev_of_ne (ha : a ≠ 0) (h : Disjoint (header b) (header a)) (hadj : a + s.numBytes a ≠ b) :
    s.linkPrev b n a = (s.setPrev b a).setNext a b := by
  simp only [linkPrev, setPrev_prev, setNext_prev_of_disjoint h, setNext_numBytes, setPrev_numBytes_of_disjoint h.symm]
  rw [if_pos ha, if_neg hadj]

theorem linkPrev_of_eq (ha : a ≠ 0) (h : Disjoint (header b) (header a)) (hadj : a + s.numBytes a = b) :
    s.linkPrev b n a = ((s.setPrev b a).setNext a b).setNumBytes a (s.numBytes a + n) := by
  simp only [linkPrev, setPrev_prev, setNext_prev_of_disjoint h, setNext_numBytes, setPrev_numBytes_of_disjoint h.symm]
  rw [if_pos ha, if_pos hadj]

-- The chunk `d` starts where the block ends.
def Adjacent (b n d : BitVec 64) : Prop :=
  d ≠ 0 ∧ b + n = d

instance {b n d : BitVec 64} : Decidable (Adjacent b n d) := inferInstanceAs <| Decidable (_ ∧ _)

theorem linkNext_cases (h : d ≠ 0 → Disjoint (header b) (header d)) :
    (d = 0 ∧ s.linkNext b n d = s.setNext b 0) ∨
    (d ≠ 0 ∧ ¬Adjacent b n d ∧ s.linkNext b n d = (s.setNext b d).setPrev d b) ∨
    (d ≠ 0 ∧ Adjacent b n d ∧ s.linkNext b n d =
      (((s.setNext b d).setPrev d b).setNumBytes b (s.numBytes b + s.numBytes d)).setNext b (s.next d)) := by
  by_cases hd : d = 0
  case pos => exact .inl ⟨hd, by rw [hd, linkNext_of_null]⟩
  case neg =>
    by_cases hadj : b + n = d
    case pos => exact .inr <| .inr ⟨hd, ⟨hd, hadj⟩, linkNext_of_eq hd (h hd) hadj⟩
    case neg => exact .inr <| .inl ⟨hd, fun h => hadj h.right, linkNext_of_ne hd (h hd) hadj⟩

theorem linkPrev_cases (h : a ≠ 0 → Disjoint (header b) (header a)) :
    (a = 0 ∧ s.linkPrev b n a = s.setPrev b 0) ∨
    (a ≠ 0 ∧ a + s.numBytes a ≠ b ∧ s.linkPrev b n a = (s.setPrev b a).setNext a b) ∨
    (a ≠ 0 ∧ a + s.numBytes a = b ∧ s.linkPrev b n a =
      ((s.setPrev b a).setNext a b).setNumBytes a (s.numBytes a + n)) := by
  by_cases ha : a = 0
  case pos => exact .inl ⟨ha, by rw [ha, linkPrev_of_null]⟩
  case neg =>
    by_cases hadj : a + s.numBytes a = b
    case pos => exact .inr <| .inr ⟨ha, hadj, linkPrev_of_eq ha (h ha) hadj⟩
    case neg => exact .inr <| .inl ⟨ha, hadj, linkPrev_of_ne ha (h ha) hadj⟩

section Next

variable (h : d ≠ 0 → Disjoint (header b) (header d))

include h

theorem changes_linkNext :
    s.memory.Changes (s.linkNext b n d).memory (header b ∪ { k | d ≠ 0 ∧ k ∈ region (d + 8) 8 }) := by
  have hn {s : State} {v : BitVec 64} :
      s.memory.Changes (s.setNext b v).memory (header b ∪ { k | d ≠ 0 ∧ k ∈ region (d + 8) 8 }) :=
    Changes.store.mono <| next_subset.trans Set.subset_union_left
  have hm {s : State} {v : BitVec 64} :
      s.memory.Changes (s.setNumBytes b v).memory (header b ∪ { k | d ≠ 0 ∧ k ∈ region (d + 8) 8 }) :=
    Changes.store.mono <| (word_subset (by decide)).trans Set.subset_union_left
  have hp {s : State} (hd : d ≠ 0) :
      s.memory.Changes (s.setPrev d b).memory (header b ∪ { k | d ≠ 0 ∧ k ∈ region (d + 8) 8 }) :=
    Changes.store.mono fun _ hk => .inr ⟨hd, hk⟩
  rcases linkNext_cases (s := s) (n := n) h with ⟨hd, he⟩ | ⟨hd, _, he⟩ | ⟨hd, _, he⟩ <;> rw [he]
  case inl     => exact hn
  case inr.inl => exact hn.trans (hp hd)
  case inr.inr => exact hn.trans (hp hd) |>.trans hm |>.trans hn

theorem linkNext_next : (s.linkNext b n d).next b = if Adjacent b n d then s.next d else d := by
  rcases linkNext_cases (s := s) (n := n) h with ⟨hd, he⟩ | ⟨hd, hadj, he⟩ | ⟨hd, hadj, he⟩ <;> rw [he]
  case inl => rw [setNext_next, if_neg fun ha => ha.left hd, hd]
  case inr.inl => rw [setPrev_next_of_disjoint (h hd), setNext_next, if_neg hadj]
  case inr.inr => rw [setNext_next, if_pos hadj]

theorem linkNext_numBytes :
    (s.linkNext b n d).numBytes b = if Adjacent b n d then s.numBytes b + s.numBytes d else s.numBytes b := by
  rcases linkNext_cases (s := s) (n := n) h with ⟨hd, he⟩ | ⟨hd, hadj, he⟩ | ⟨hd, hadj, he⟩ <;> rw [he]
  case inl => rw [setNext_numBytes, if_neg fun ha => ha.left hd]
  case inr.inl => rw [setPrev_numBytes_of_disjoint (h hd), setNext_numBytes, if_neg hadj]
  case inr.inr => rw [setNext_numBytes, setNumBytes_numBytes, if_pos hadj]

theorem linkNext_prev (hd : d ≠ 0) : (s.linkNext b n d).prev d = b := by
  rcases linkNext_cases (s := s) (n := n) h with ⟨hd', he⟩ | ⟨_, _, he⟩ | ⟨_, _, he⟩
  case inl => exact absurd hd' hd
  case inr.inl => rw [he, setPrev_prev]
  case inr.inr =>
    rw [he, setNext_prev_of_disjoint (h hd).symm, setNumBytes_prev_of_disjoint (h hd).symm, setPrev_prev]

end Next

section Prev

variable (h : a ≠ 0 → Disjoint (header b) (header a))

include h

theorem changes_linkPrev : s.memory.Changes (s.linkPrev b n a).memory
    (region (b + 8) 8 ∪ { k | a ≠ 0 ∧ (k ∈ region a 8 ∨ k ∈ region (a + 16) 8) }) := by
  have hp {s : State} {v : BitVec 64} : s.memory.Changes (s.setPrev b v).memory
      (region (b + 8) 8 ∪ { k | a ≠ 0 ∧ (k ∈ region a 8 ∨ k ∈ region (a + 16) 8) }) :=
    Changes.store.mono Set.subset_union_left
  have hn {s : State} (ha : a ≠ 0) : s.memory.Changes (s.setNext a b).memory
      (region (b + 8) 8 ∪ { k | a ≠ 0 ∧ (k ∈ region a 8 ∨ k ∈ region (a + 16) 8) }) :=
    Changes.store.mono fun _ hk => .inr ⟨ha, .inl hk⟩
  have hm {s : State} {v : BitVec 64} (ha : a ≠ 0) : s.memory.Changes (s.setNumBytes a v).memory
      (region (b + 8) 8 ∪ { k | a ≠ 0 ∧ (k ∈ region a 8 ∨ k ∈ region (a + 16) 8) }) :=
    Changes.store.mono fun _ hk => .inr ⟨ha, .inr hk⟩
  rcases linkPrev_cases (s := s) (n := n) h with ⟨ha, he⟩ | ⟨ha, _, he⟩ | ⟨ha, _, he⟩ <;> rw [he]
  case inl     => exact hp
  case inr.inl => exact hp.trans (hn ha)
  case inr.inr => exact hp.trans (hn ha) |>.trans (hm ha)

theorem linkPrev_prev : (s.linkPrev b n a).prev b = a := by
  rcases linkPrev_cases (s := s) (n := n) h with ⟨ha, he⟩ | ⟨ha, _, he⟩ | ⟨ha, _, he⟩ <;> rw [he]
  case inl     => rw [setPrev_prev, ha]
  case inr.inl => rw [setNext_prev_of_disjoint (h ha), setPrev_prev]
  case inr.inr => rw [setNumBytes_prev_of_disjoint (h ha), setNext_prev_of_disjoint (h ha), setPrev_prev]

theorem linkPrev_next_self : (s.linkPrev b n a).next b = s.next b := by
  rcases linkPrev_cases (s := s) (n := n) h with ⟨ha, he⟩ | ⟨ha, _, he⟩ | ⟨ha, _, he⟩ <;> rw [he]
  case inl     => rw [setPrev_next]
  case inr.inl => rw [setNext_next_of_disjoint (h ha), setPrev_next]
  case inr.inr => rw [setNumBytes_next_of_disjoint (h ha), setNext_next_of_disjoint (h ha), setPrev_next]

theorem linkPrev_numBytes_self : (s.linkPrev b n a).numBytes b = s.numBytes b := by
  rcases linkPrev_cases (s := s) (n := n) h with ⟨ha, he⟩ | ⟨ha, _, he⟩ | ⟨ha, _, he⟩ <;> rw [he]
  case inl     => rw [setPrev_numBytes]
  case inr.inl => rw [setNext_numBytes_of_disjoint (h ha), setPrev_numBytes]
  case inr.inr => rw [setNumBytes_numBytes_of_disjoint (h ha), setNext_numBytes_of_disjoint (h ha), setPrev_numBytes]

theorem linkPrev_next (ha : a ≠ 0) : (s.linkPrev b n a).next a = b := by
  rcases linkPrev_cases (s := s) (n := n) h with ⟨ha', he⟩ | ⟨_, _, he⟩ | ⟨_, _, he⟩
  case inl     => exact absurd ha' ha
  case inr.inl => rw [he, setNext_next]
  case inr.inr => rw [he, setNumBytes_next, setNext_next]

theorem linkPrev_numBytes (ha : a ≠ 0) :
    (s.linkPrev b n a).numBytes a = if a + s.numBytes a = b then s.numBytes a + n else s.numBytes a := by
  rcases linkPrev_cases (s := s) (n := n) h with ⟨ha', he⟩ | ⟨_, hadj, he⟩ | ⟨_, hadj, he⟩
  case inl     => exact absurd ha' ha
  case inr.inl => rw [he, if_neg hadj, setNext_numBytes, setPrev_numBytes_of_disjoint (h ha).symm]
  case inr.inr => rw [he, if_pos hadj, setNumBytes_numBytes]

end Prev

theorem linkNext_freeList : (s.linkNext b n d).freeList = s.freeList := by
  simp only [linkNext]
  split
  case isTrue  => split <;> rfl
  case isFalse => rfl

theorem linkPrev_freeList : (s.linkPrev b n a).freeList = s.freeList := by
  simp only [linkPrev]
  split
  case isTrue  => split <;> rfl
  case isFalse => rfl

end Link

-- Linking `b` in between `a` and `d`, where each one of them is null or one of the nodes `xs`. The headers of all of
-- these nodes are disjoint.
section Between

variable {x : BitVec 64} {xs : List (BitVec 64)} (hb : ∀ x ∈ xs, Disjoint (header b) (header x))
variable (hxs : ∀ x ∈ xs, ∀ y ∈ xs, x ≠ y → Disjoint (header x) (header y))
variable (ha : a ≠ 0 → a ∈ xs) (hd : d ≠ 0 → d ∈ xs)

include hb ha in
theorem link_prev_self : (s.link b n a d).prev b = a :=
  linkPrev_prev fun h => hb a (ha h)

include hb ha hd in
theorem link_next_self : (s.link b n a d).next b = if Adjacent b n d then s.next d else d := by
  rw [link, linkPrev_next_self fun h => hb a (ha h), linkNext_next fun h => hb d (hd h)]

include hb ha hd in
theorem link_numBytes_self :
    (s.link b n a d).numBytes b = if Adjacent b n d then s.numBytes b + s.numBytes d else s.numBytes b := by
  rw [link, linkPrev_numBytes_self fun h => hb a (ha h), linkNext_numBytes fun h => hb d (hd h)]

-- The words of `x` that are not affected by linking `b` to `d`, and by linking `b` to `a`.
include hb hxs hd in
theorem linkNext_word {i : BitVec 64} (hx : x ∈ xs) (hi : i = 0 ∨ i = 8 ∨ i = 16) (h : x = d → i ≠ 8) :
    (s.linkNext b n d).memory.load (x + i) = s.memory.load (x + i) := by
  have hw : region (x + i) 8 ⊆ header x := word_subset <| by
    rcases hi with hi | hi | hi <;> rw [hi] <;> decide
  refine (changes_linkNext fun h => hb d (hd h)).load <| Set.disjoint_union_right.mpr ⟨?_, ?_⟩
  case refine_1 => exact (hb x hx).symm.mono_left hw
  case refine_2 =>
    refine Set.disjoint_left.mpr fun k hk hk' => ?_
    refine Set.disjoint_left.mp ?_ hk hk'.right
    by_cases he : x = d
    case pos =>
      rw [← he]
      apply disjoint_words
      case h  => rcases hi with hi | hi | hi <;> first | exact absurd hi (h he) | (rw [hi]; decide)
      case h' => rcases hi with hi | hi | hi <;> first | exact absurd hi (h he) | (rw [hi]; decide)
    case neg => exact (hxs x hx d (hd hk'.left) he).mono hw (word_subset (by decide))

include hb hxs ha in
theorem linkPrev_word {i : BitVec 64} (hx : x ∈ xs) (hi : i = 0 ∨ i = 8 ∨ i = 16) (h : x = a → i = 8) :
    (s.linkPrev b n a).memory.load (x + i) = s.memory.load (x + i) := by
  have hw : region (x + i) 8 ⊆ header x := word_subset <| by
    rcases hi with hi | hi | hi <;> rw [hi] <;> decide
  refine (changes_linkPrev fun h => hb a (ha h)).load <| Set.disjoint_union_right.mpr ⟨?_, ?_⟩
  case refine_1 => exact (hb x hx).symm.mono hw (word_subset (by decide))
  case refine_2 =>
    refine Set.disjoint_left.mpr fun k hk hk' => ?_
    by_cases he : x = a
    case pos =>
      rw [← he] at hk'
      rw [h he] at hk
      cases hk'.right
      case inl hk' =>
        have hd : Disjoint (region (x + 8) 8) (region x 8) := by apply disjoint_region <;> bv_omega
        exact Set.disjoint_left.mp hd hk hk'
      case inr hk' => exact Set.disjoint_left.mp (disjoint_words (by decide) (by decide)) hk hk'
    case neg =>
      have hxa := hxs x hx a (ha hk'.left) he
      cases hk'.right
      case inl hk' => exact Set.disjoint_left.mp (hxa.mono hw next_subset) hk hk'
      case inr hk' => exact Set.disjoint_left.mp (hxa.mono hw <| word_subset (by decide)) hk hk'

include hb hxs ha hd in
theorem link_next (h0 : ∀ x ∈ xs, x ≠ 0) (hx : x ∈ xs) : (s.link b n a d).next x = if x = a then b else s.next x := by
  split
  case isTrue he =>
    subst he
    exact linkPrev_next (fun h => hb x (ha h)) (h0 x hx)
  case isFalse he =>
    have h₁ := linkPrev_word (s := s.linkNext b n d) (n := n) (i := 0) hb hxs ha hx (.inl rfl) fun h => absurd h he
    have h₂ := linkNext_word (s := s) (n := n) (i := 0) hb hxs hd hx (.inl rfl) fun _ => by decide
    have hz : x + 0 = x := BitVec.add_zero x
    rw [hz] at h₁ h₂
    rw [link, next, h₁, h₂, next]

include hb hxs ha hd in
theorem link_prev (h0 : ∀ x ∈ xs, x ≠ 0) (hx : x ∈ xs) : (s.link b n a d).prev x = if x = d then b else s.prev x := by
  have h₁ : (s.link b n a d).prev x = (s.linkNext b n d).prev x :=
    linkPrev_word hb hxs ha hx (.inr <| .inl rfl) fun _ => rfl
  rw [h₁]
  split
  case isTrue he =>
    subst he
    exact linkNext_prev (fun h => hb x (hd h)) (h0 x hx)
  case isFalse he => exact linkNext_word hb hxs hd hx (.inr <| .inl rfl) fun h => absurd h he

include hb hxs ha hd in
theorem link_numBytes (h0 : ∀ x ∈ xs, x ≠ 0) (hx : x ∈ xs) : (s.link b n a d).numBytes x =
    if x = a ∧ x + s.numBytes x = b then s.numBytes x + n else s.numBytes x := by
  have h₂ : (s.linkNext b n d).numBytes x = s.numBytes x :=
    linkNext_word hb hxs hd hx (.inr <| .inr rfl) fun _ => by decide
  by_cases he : x = a
  case pos =>
    subst he
    rw [link, linkPrev_numBytes (fun h => hb x (ha h)) (h0 x hx), h₂]
    simp only [true_and]
  case neg =>
    have h₁ : (s.link b n a d).numBytes x = (s.linkNext b n d).numBytes x :=
      linkPrev_word hb hxs ha hx (.inr <| .inr rfl) fun h => absurd h he
    rw [h₁, h₂, if_neg fun h => he h.left]

end Between

theorem link_freeList : (s.link b n a d).freeList = s.freeList := by
  rw [link, linkPrev_freeList, linkNext_freeList]

end State
end Alloc
