import Xesual.Library.Chain

-- Doubly linked lists in a memory, where `next x` and `prev x` are the nodes that `x` points to.

variable {α : Type*} {next next' prev prev' : α → α} {null : α}

namespace Linked

-- Following `next` from `p` visits exactly the nodes `xs` and then arrives at `r`, and following `prev` the other
-- way leads from `t` back through these nodes and then arrives at `q`.
def Double (next prev : α → α) (null q p : α) : List α → α → α → Prop
  | [],      t, r => q = t ∧ p = r
  | x :: xs, t, r => p = x ∧ x ≠ null ∧ prev x = q ∧ Double next prev null x (next x) xs t r

-- A list which starts at `p` and ends at `null`. The `prev` field of its first node is `q`.
def DoubleChain (next prev : α → α) (null q p : α) (xs : List α) : Prop :=
  ∃ t, Double next prev null q p xs t null

namespace Double

variable {p q r t x : α} {xs ys : List α}

@[simp]
theorem nil_iff : Double next prev null q p [] t r ↔ q = t ∧ p = r :=
  .rfl

@[simp]
theorem cons_iff : Double next prev null q p (x :: xs) t r ↔
    p = x ∧ x ≠ null ∧ prev x = q ∧ Double next prev null x (next x) xs t r :=
  .rfl

theorem append_iff : Double next prev null q p (xs ++ ys) t r ↔
    ∃ t' r', Double next prev null q p xs t' r' ∧ Double next prev null t' r' ys t r := by
  induction xs generalizing p q
  case nil         => simp
  case cons x _ ih => simp [ih, and_assoc]

theorem congr (d : Double next prev null q p xs t r) (hn : ∀ x ∈ xs, next' x = next x)
    (hp : ∀ x ∈ xs, prev' x = prev x) : Double next' prev' null q p xs t r := by
  induction xs generalizing p q
  case nil => exact d
  case cons x xs ih =>
    have ⟨h, hx, hq, d⟩ := d
    simp only [List.mem_cons, forall_eq_or_imp] at hn hp
    refine ⟨h, hx, hp.left.trans hq, ?_⟩
    rw [hn.left]
    exact ih d hn.right hp.right

theorem segment (d : Double next prev null q p xs t r) : Segment next null p xs r := by
  induction xs generalizing p q
  case nil  => exact d.right
  case cons ih =>
    have ⟨h, hx, _, d⟩ := d
    exact ⟨h, hx, ih d⟩

-- A segment ends with the node at which following `prev` starts.
theorem concat_iff : Double next prev null q p (xs ++ [x]) t r ↔
    Double next prev null q p xs (prev x) x ∧ x ≠ null ∧ t = x ∧ next x = r := by
  rw [append_iff]
  constructor
  case mp =>
    intro ⟨t', r', d, hr, hx, ht, htx, hn⟩
    subst hr ht
    exact ⟨d, hx, htx.symm, hn⟩
  case mpr =>
    intro ⟨d, hx, ht, hn⟩
    exact ⟨_, _, d, rfl, hx, rfl, ht.symm, hn⟩

end Double

namespace DoubleChain

variable {p q r x : α} {xs ys : List α}

theorem chain (d : DoubleChain next prev null q p xs) : Chain next null p xs :=
  have ⟨_, d⟩ := d
  d.segment

@[simp]
theorem nil_iff : DoubleChain next prev null q p [] ↔ p = null := by
  simp [DoubleChain]

@[simp]
theorem cons_iff : DoubleChain next prev null q p (x :: xs) ↔
    p = x ∧ x ≠ null ∧ prev x = q ∧ DoubleChain next prev null x (next x) xs := by
  simp [DoubleChain]

theorem append_iff : DoubleChain next prev null q p (xs ++ ys) ↔
    ∃ t r, Double next prev null q p xs t r ∧ DoubleChain next prev null t r ys := by
  simp only [DoubleChain, Double.append_iff]
  grind

theorem congr (d : DoubleChain next prev null q p xs) (hn : ∀ x ∈ xs, next' x = next x)
    (hp : ∀ x ∈ xs, prev' x = prev x) : DoubleChain next' prev' null q p xs :=
  have ⟨t, d⟩ := d
  ⟨t, d.congr hn hp⟩

theorem head_mem (d : DoubleChain next prev null q p xs) (h : p ≠ null) : p ∈ xs := by
  cases xs
  case nil  => exact absurd (nil_iff.mp d) h
  case cons => simp [(cons_iff.mp d).left]

theorem head_mem_of_append (d : DoubleChain next prev null q p (xs ++ ys)) (h : xs ≠ []) : p ∈ xs := by
  cases xs
  case nil  => contradiction
  case cons => simp [(cons_iff.mp d).left]

-- The list with another node in front of it, or with another `prev` field in its first node.
theorem redirect (d : DoubleChain next prev null q p xs) (hd : xs.Nodup) (hn : ∀ x ∈ xs, next' x = next x)
    (hp : ∀ x ∈ xs, x ≠ p → prev' x = prev x) (h : p ≠ null → prev' p = r) :
    DoubleChain next' prev' null r p xs := by
  cases xs
  case nil => simpa using d
  case cons x xs =>
    have ⟨hx, hx', _, d⟩ := cons_iff.mp d
    subst hx
    simp only [List.mem_cons, forall_eq_or_imp] at hn hp
    refine cons_iff.mpr ⟨rfl, hx', h hx', ?_⟩
    rw [hn.left]
    refine d.congr hn.right fun y hy => hp.right y hy ?_
    exact ne_of_mem_of_not_mem hy (List.nodup_cons.mp hd).left

-- Redirecting the node `a` to the nodes `zs`, which stand behind it from now on.
theorem splice {a : α} {zs : List α} (d : DoubleChain next prev null q p (xs ++ a :: ys))
    (hn : ∀ x ∈ xs, next' x = next x) (hp : ∀ x ∈ xs ++ [a], prev' x = prev x)
    (h : DoubleChain next' prev' null a (next' a) zs) : DoubleChain next' prev' null q p (xs ++ a :: zs) := by
  have ⟨_, _, d, h'⟩ := append_iff.mp d
  have ⟨hr, ha, ht, _⟩ := cons_iff.mp h'
  subst hr ht
  refine append_iff.mpr ⟨_, _, d.congr hn fun x hx => hp x (by simp [hx]), ?_⟩
  exact cons_iff.mpr ⟨rfl, ha, hp _ (by simp), h⟩

end DoubleChain
end Linked
