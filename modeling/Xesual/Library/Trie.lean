import Mathlib

-- Trees in memory whose nodes are arrays of entries, where an entry may refer to another node. A node is
-- found by following the entries at the indices of a path.

namespace Trie

variable {N I E : Type*} {child child' : E → Option N} {m m' : N → I → E} {t n n' : N} {i : I} {e : E}
variable {p q : List I} {d : Nat}

def descend (child : E → Option N) (m : N → I → E) (t : N) : List I → Option N
  | []     => some t
  | i :: p => (child (m t i)).bind (descend child m · p)

theorem descend_append : descend child m t (p ++ q) = (descend child m t p).bind (descend child m · q) := by
  induction p generalizing t
  case nil       => rfl
  case cons i p ih =>
    simp only [List.cons_append, descend, Option.bind_assoc]
    congr
    funext n
    exact ih

theorem descend_concat : descend child m t (p ++ [i]) = (descend child m t p).bind (fun n => child (m n i)) := by
  simp [descend_append, descend]

-- A descent only depends on the references in the entries that it follows.
theorem descend_congr (h : ∀ q i, q ++ [i] <+: p → ∀ n, descend child m t q = some n →
    child' (m' n i) = child (m n i)) : descend child' m' t p = descend child m t p := by
  induction p using List.reverseRecOn
  case nil => rfl
  case append_singleton p i ih =>
    have ih := ih (fun q j hq => h q j (hq.trans (List.prefix_append ..)))
    rw [descend_concat, descend_concat, ih]
    cases hn : descend child m t p
    case none   => rfl
    case some n => exact h p i (List.prefix_refl _) n hn

-- No node is reached by two different paths of length at most `d`.
def Unshared (child : E → Option N) (m : N → I → E) (t : N) (d : Nat) : Prop :=
  ∀ ⦃p q n⦄, p.length ≤ d → q.length ≤ d →
    descend child m t p = some n → descend child m t q = some n → p = q

section Write

variable [DecidableEq N] [DecidableEq I]

def write (m : N → I → E) (n : N) (i : I) (e : E) : N → I → E :=
  Function.update m n (Function.update (m n) i e)

@[simp]
theorem write_self : write m n i e n i = e := by
  simp [write]

theorem write_of_ne {j : I} (h : n' ≠ n ∨ j ≠ i) : write m n i e n' j = m n' j := by
  by_cases hn : n' = n
  case pos =>
    subst hn
    simp [write, h.resolve_left (· rfl)]
  case neg => simp [write, hn]

-- Writing to the nodes at the lowest level does not affect any descent.
theorem Unshared.descend_write (u : Unshared child m t d) (hp : descend child m t p = some n)
    (hd : p.length = d) (hq : q.length ≤ d) :
    descend child (write m n i e) t q = descend child m t q := by
  apply descend_congr
  intro q' j hj x hx
  have hl : q'.length + 1 ≤ q.length := by simpa using hj.length_le
  have hne : x ≠ n := by
    intro he
    have hpq := u (Nat.le_of_eq hd) (by omega) hp (he ▸ hx)
    rw [hpq] at hd
    omega
  rw [write_of_ne (.inl hne)]

theorem Unshared.write (u : Unshared child m t d) (hp : descend child m t p = some n)
    (hd : p.length = d) : Unshared child (write m n i e) t d := by
  intro q q' x hq hq' h h'
  rw [u.descend_write hp hd hq] at h
  rw [u.descend_write hp hd hq'] at h'
  exact u hq hq' h h'

-- Attaching a new node without references to an entry that had no reference so far.
def attach (m : N → I → E) (n : N) (i : I) (e : E) (n' : N) (b : I → E) : N → I → E :=
  Function.update (Trie.write m n i e) n' b

variable {b : I → E}

theorem attach_new : attach m n i e n' b n' = b := by
  simp [attach]

theorem attach_of_ne {x : N} (h : x ≠ n') : attach m n i e n' b x = Trie.write m n i e x := by
  simp [attach, h]

-- The node `n'` can be attached to the `i`-th entry of the node `n` at the end of the path `p`.
structure Attachable (child : E → Option N) (m : N → I → E) (t : N) (d : Nat) (p : List I) (n : N)
    (i : I) (e : E) (n' : N) (b : I → E) : Prop where
  unshared : Unshared child m t d
  path     : descend child m t p = some n
  length   : p.length < d
  vacant   : child (m n i) = none
  entry    : child e = some n'
  fresh    : ∀ q, q.length ≤ d → descend child m t q ≠ some n'
  blank    : ∀ j, child (b j) = none

theorem Attachable.descend (a : Attachable child m t d p n i e n' b) (hq : q.length ≤ d) :
    descend child (attach m n i e n' b) t q = if q = p ++ [i] then some n' else descend child m t q := by
  induction q using List.reverseRecOn
  case nil => simp [Trie.descend]
  case append_singleton q j ih =>
    rw [List.length_append, List.length_singleton] at hq
    rw [descend_concat, ih (by omega)]
    by_cases hpi : q = p ++ [i]
    case pos =>
      -- Nothing is reached through the new node, just as through the vacant entry before.
      have hne : q ++ [j] ≠ p ++ [i] := by
        intro h
        simpa [hpi] using congrArg List.length h
      have hv : Trie.descend child m t q = none := by
        simp [hpi, descend_concat, a.path, a.vacant]
      rw [if_pos hpi, if_neg hne, descend_concat, hv]
      simp [attach_new, a.blank]
    case neg =>
      rw [if_neg hpi]
      cases hx : Trie.descend child m t q
      case none =>
        have hne : q ++ [j] ≠ p ++ [i] := by
          intro h
          have hqp := List.append_inj' h rfl |>.left
          simp [hqp, a.path] at hx
        simp [hne, descend_concat, hx]
      case some x =>
        have hxn : x ≠ n' := fun h => a.fresh q (by omega) (h ▸ hx)
        simp only [Option.bind_some, attach_of_ne hxn]
        by_cases he : q ++ [j] = p ++ [i]
        case pos =>
          have ⟨hqp, hji⟩ := List.append_inj' he rfl
          simp only [List.cons.injEq, and_true] at hji
          cases Option.some.inj <| (hqp ▸ hx).symm.trans a.path
          simp [hji, hqp, a.entry]
        case neg =>
          rw [if_neg he, descend_concat, hx, Option.bind_some]
          refine congrArg child (write_of_ne ?_)
          -- If the entry was the one that has been written, then the path would be the same.
          by_cases hxn : x = n
          case pos =>
            have hqp := a.unshared (by omega) (Nat.le_of_lt a.length) (hxn ▸ hx) a.path
            exact .inr fun hji => he (by rw [hqp, hji])
          case neg => exact .inl hxn

theorem Attachable.unshared_attach (a : Attachable child m t d p n i e n' b) :
    Unshared child (attach m n i e n' b) t d := by
  intro q q' x hq hq' h h'
  rw [a.descend hq] at h
  rw [a.descend hq'] at h'
  by_cases hpi : q = p ++ [i] <;> simp only [hpi, ↓reduceIte] at h
  case pos =>
    by_cases hpi' : q' = p ++ [i] <;> simp only [hpi', ↓reduceIte] at h'
    case pos => rw [hpi, hpi']
    case neg => exact absurd (h'.trans h.symm) (a.fresh q' hq')
  case neg =>
    by_cases hpi' : q' = p ++ [i] <;> simp only [hpi', ↓reduceIte] at h'
    case pos => exact absurd (h.trans h'.symm) (a.fresh q hq)
    case neg => exact a.unshared hq hq' h h'

end Write

section Copy

-- A copy of the root of a tree, in a node that does not belong to the tree.
variable [DecidableEq N] (fresh : ∀ q, q.length ≤ d → descend child m t q ≠ some n')
include fresh

theorem descend_copy (hq : (i :: q).length ≤ d) :
    descend child (Function.update m n' (m t)) n' (i :: q) = descend child m t (i :: q) := by
  simp only [descend, Function.update_self]
  cases hc : child (m t i)
  case none   => rfl
  case some n =>
    apply descend_congr
    intro q' j hj x hx
    have hl : q'.length + 1 ≤ q.length := by simpa using hj.length_le
    have hne : x ≠ n' := by
      intro he
      apply fresh (i :: q')
      case a => simp only [List.length_cons] at hq ⊢; omega
      case a => simp [descend, hc, hx, he]
    rw [Function.update_of_ne hne]

theorem Unshared.copy (u : Unshared child m t d) :
    Unshared child (Function.update m n' (m t)) n' d := by
  intro p q x hp hq h h'
  cases p <;> cases q
  case nil.nil   => rfl
  case nil.cons  => exact absurd ((descend_copy fresh hq).symm.trans (h'.trans h.symm)) (fresh _ hq)
  case cons.nil  => exact absurd ((descend_copy fresh hp).symm.trans (h.trans h'.symm)) (fresh _ hp)
  case cons.cons => exact u hp hq ((descend_copy fresh hp).symm.trans h) ((descend_copy fresh hq).symm.trans h')

end Copy
end Trie
