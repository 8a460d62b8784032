import Mathlib

-- Singly linked lists in a memory: `next x` is the node that `x` points to, and `null` ends a list.

variable {α : Type*} {next next' : α → α} {null : α}

namespace Linked

-- `Segment next null p xs q` means that following `next` from `p` visits exactly the nodes `xs`, in this
-- order and all of them different from `null`, and then arrives at `q`.
def Segment (next : α → α) (null : α) (p : α) : List α → α → Prop
  | [],      q => p = q
  | x :: xs, q => p = x ∧ x ≠ null ∧ Segment next null (next x) xs q

-- A list which starts at `p` and ends at `null`.
def Chain (next : α → α) (null : α) (p : α) (xs : List α) : Prop :=
  Segment next null p xs null

-- The nodes that can be reached from `p` through `next`.
inductive Reachable (next : α → α) (null : α) (p : α) : α → Prop
  | head : p ≠ null → Reachable next null p p
  | next : Reachable next null p x → next x ≠ null → Reachable next null p (next x)

namespace Reachable

variable {p x : α}

-- Everything reachable from the node after `p` is reachable from `p`.
theorem cons (hp : p ≠ null) (r : Reachable next null (next p) x) : Reachable next null p x := by
  induction r
  case head hn    => exact .next (.head hp) hn
  case next hn ih => exact .next ih hn

theorem exists_iterate (r : Reachable next null p x) : ∃ k, next^[k] p = x ∧ ∀ i ≤ k, next^[i] p ≠ null := by
  induction r
  case head hp => exact ⟨0, rfl, fun i hi => by rwa [Nat.le_zero.mp hi]⟩
  case next y _ hn ih =>
    have ⟨k, hk, h⟩ := ih
    have hx : next^[k + 1] p = next y := by rw [Function.iterate_succ_apply', hk]
    refine ⟨k + 1, hx, fun i hi => ?_⟩
    cases Nat.le_succ_iff.mp hi
    case inl hi => exact h i hi
    case inr hi => rwa [hi, hx]

end Reachable

namespace Segment

variable {p q r : α} {xs ys : List α}

@[simp]
theorem nil_iff : Segment next null p [] q ↔ p = q :=
  .rfl

@[simp]
theorem cons_iff {x : α} :
    Segment next null p (x :: xs) q ↔ p = x ∧ x ≠ null ∧ Segment next null (next x) xs q :=
  .rfl

theorem append_iff :
    Segment next null p (xs ++ ys) q ↔ ∃ r, Segment next null p xs r ∧ Segment next null r ys q := by
  induction xs generalizing p
  case nil        => simp
  case cons x _ ih => simp [ih, and_assoc]

theorem congr (s : Segment next null p xs q) (h : ∀ x ∈ xs, next' x = next x) :
    Segment next' null p xs q := by
  induction xs generalizing p
  case nil => exact s
  case cons x xs ih =>
    have ⟨hp, hx, s⟩ := s
    refine ⟨hp, hx, ?_⟩
    rw [h x (by simp)]
    exact ih s (fun y hy => h y (by simp [hy]))

theorem ne_null (s : Segment next null p xs q) {x : α} (h : x ∈ xs) : x ≠ null := by
  induction xs generalizing p
  case nil => cases h
  case cons ih =>
    have ⟨_, hx, s⟩ := s
    cases h
    case head   => exact hx
    case tail h => exact ih s h

-- Changing the `next` field of a node outside of a segment does not affect the segment.
theorem update [DecidableEq α] {a b : α} (s : Segment next null p xs q) (h : a ∉ xs) :
    Segment (Function.update next a b) null p xs q :=
  s.congr (fun _ hx => Function.update_of_ne (ne_of_mem_of_not_mem hx h) ..)

-- Redirecting the last node of a segment redirects the end of the segment.
theorem redirect [DecidableEq α] {a : α} (s : Segment next null p (xs ++ [a]) q) (h : a ∉ xs) :
    Segment (Function.update next a r) null p (xs ++ [a]) r := by
  have ⟨_, s, ha, hn, _⟩ := append_iff.mp s
  refine append_iff.mpr ⟨_, s.update h, ha, hn, ?_⟩
  simp

instance decidable [DecidableEq α] (p : α) : ∀ xs q, Decidable (Segment next null p xs q)
  | [],      q => inferInstanceAs <| Decidable (p = q)
  | x :: xs, q =>
    have := decidable (next x) xs q
    inferInstanceAs <| Decidable (p = x ∧ x ≠ null ∧ Segment next null (next x) xs q)

end Segment

namespace Chain

instance [DecidableEq α] {p : α} {xs : List α} : Decidable (Chain next null p xs) :=
  inferInstanceAs <| Decidable (Segment next null p xs null)

variable {p : α} {xs ys pre post : List α} {a b c : α}

theorem unique (h₁ : Chain next null p xs) (h₂ : Chain next null p ys) : xs = ys := by
  induction xs generalizing p ys <;> cases ys
  case nil.nil => rfl
  case nil.cons => exact absurd (h₂.left ▸ h₁) h₂.right.left
  case cons.nil => exact absurd (h₁.left ▸ h₂) h₁.right.left
  case cons.cons ih _ _ =>
    have ⟨hx, _, h₁⟩ := h₁
    have ⟨hy, _, h₂⟩ := h₂
    cases hx.symm.trans hy
    rw [ih h₁ h₂]

theorem eq_nil_iff (h : Chain next null p xs) : xs = [] ↔ p = null := by
  cases xs
  case nil  => simpa [Chain] using h
  case cons => simpa [h.left] using h.right.left

theorem mem_iff (h : Chain next null p xs) : a ∈ xs ↔ Reachable next null p a := by
  constructor
  case mp =>
    intro ha
    induction xs generalizing p
    case nil => cases ha
    case cons ih =>
      have ⟨hp, hx, h⟩ := h
      subst hp
      cases ha
      case head   => exact .head hx
      case tail m => exact (ih h m).cons hx
  case mpr =>
    intro r
    induction r
    case head hp =>
      cases xs
      case nil  => exact absurd h hp
      case cons => simp [h.left]
    case next x _ hn ih =>
      have ⟨xs, ys, hxs⟩ := List.append_of_mem ih
      subst hxs
      have ⟨_, _, _, _, s⟩ := Segment.append_iff.mp h
      cases ys
      case nil  => exact absurd s hn
      case cons => simp [s.left]

theorem rel_next {R : α → α → Prop} (h : Chain next null p xs) (hr : xs.Pairwise R) (ha : a ∈ xs)
    (hn : next a ≠ null) : R a (next a) := by
  have ⟨_, ys, hxs⟩ := List.append_of_mem ha
  subst hxs
  have ⟨_, _, _, _, s⟩ := Segment.append_iff.mp h
  have hr := List.pairwise_append.mp hr |>.right.left
  cases ys
  case nil  => exact absurd s hn
  case cons => rw [s.left]; exact List.rel_of_pairwise_cons hr (by simp)

-- A list ends where its last node points to.
theorem head_of_append (h : Chain next null p (xs ++ ys)) :
    Segment next null p xs (ys.headD null) ∧ Chain next null (ys.headD null) ys := by
  have ⟨_, s, h⟩ := Segment.append_iff.mp h
  cases ys
  case nil  => simp_all [Chain]
  case cons => simp_all [Chain]

theorem next_eq (h : Chain next null p (pre ++ a :: post)) : next a = post.headD null := by
  have ⟨_, _, _, _, h⟩ := Segment.append_iff.mp h
  cases post
  case nil  => exact h
  case cons => exact h.left

-- Linking `b` in behind `a`, where `c` is the node at which the remainder `post` of the list starts.
theorem insert [DecidableEq α] {c' : α} (s : Segment next null p (pre ++ [a]) c')
    (h : Chain next null c post) (hb : b ≠ null) (ha : a ∉ pre) (ha' : a ∉ post) (hab : a ≠ b)
    (hb' : b ∉ pre) (hb'' : b ∉ post) :
    Chain (Function.update (Function.update next a b) b c) null p (pre ++ a :: b :: post) := by
  rw [show pre ++ a :: b :: post = (pre ++ [a]) ++ b :: post by simp]
  refine Segment.append_iff.mpr ⟨b, ?_, rfl, hb, ?_⟩
  case refine_1 => exact (s.redirect ha).update (by simp [hb', hab.symm])
  case refine_2 =>
    rw [Function.update_self]
    exact (h.update ha').update hb''

-- Unlinking `b`, which stands behind `a`.
theorem remove [DecidableEq α] (h : Chain next null p (pre ++ a :: b :: post)) (ha : a ∉ pre) (ha' : a ∉ post) :
    Chain (Function.update next a (next b)) null p (pre ++ a :: post) := by
  rw [show pre ++ a :: b :: post = (pre ++ [a]) ++ b :: post by simp] at h
  rw [show pre ++ a :: post = (pre ++ [a]) ++ post by simp]
  have ⟨_, s, _, _, h⟩ := Segment.append_iff.mp h
  exact Segment.append_iff.mpr ⟨_, s.redirect ha, h.update ha'⟩

end Chain
end Linked
