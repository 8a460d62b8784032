import Mathlib

-- Loops that visit one element after the other until they have found a result.

variable {α β : Type*} {stop : α → Option β} {next : α → α} {a : α} {b b' : β} {fuel fuel' : Nat}

-- The element that is visited after `a` is `next a`. The search ends if `stop` yields a result, and it is cut off
-- after `fuel` elements.
def search (stop : α → Option β) (next : α → α) : Nat → α → Option β
  | 0,        _ => none
  | fuel + 1, a =>
    match stop a with
    | some b => some b
    | none   => search stop next fuel (next a)

namespace Search

theorem zero : search stop next 0 a = none := rfl

theorem of_stop (h : stop a = some b) : search stop next (fuel + 1) a = some b := by
  rw [search, h]

theorem of_next (h : stop a = none) : search stop next (fuel + 1) a = search stop next fuel (next a) := by
  rw [search, h]

-- The result is the one of the first element that yields a result.
theorem eq_some_iff : search stop next fuel a = some b ↔
    ∃ k < fuel, (∀ i < k, stop (next^[i] a) = none) ∧ stop (next^[k] a) = some b := by
  induction fuel generalizing a
  case zero => simp [zero]
  case succ fuel ih =>
    cases h : stop a
    case none =>
      rw [of_next h, ih]
      constructor
      case mp =>
        intro ⟨k, hk, hn, hs⟩
        refine ⟨k + 1, Nat.succ_lt_succ hk, fun i hi => ?_, hs⟩
        cases i
        case zero   => exact h
        case succ i => exact hn i (Nat.lt_of_succ_lt_succ hi)
      case mpr =>
        intro ⟨k, hk, hn, hs⟩
        cases k
        case zero   => exact absurd (h.symm.trans hs) (by simp)
        case succ k =>
          exact ⟨k, Nat.lt_of_succ_lt_succ hk, fun i hi => hn (i + 1) (Nat.succ_lt_succ hi), hs⟩
    case some c =>
      rw [of_stop h]
      constructor
      case mp =>
        intro hb
        exact ⟨0, Nat.succ_pos _, fun i hi => absurd hi (Nat.not_lt_zero i), h.trans hb⟩
      case mpr =>
        intro ⟨k, _, hn, hs⟩
        cases k
        case zero   => exact h.symm.trans hs
        case succ k => exact absurd (h.symm.trans <| hn 0 (Nat.succ_pos _)) (by simp)

-- The result does not depend on where the search is cut off.
theorem deterministic (h : search stop next fuel a = some b) (h' : search stop next fuel' a = some b') : b = b' := by
  have ⟨k, _, hn, hs⟩ := eq_some_iff.mp h
  have ⟨k', _, hn', hs'⟩ := eq_some_iff.mp h'
  rcases Nat.lt_trichotomy k k' with hk | hk | hk
  case inl     => exact absurd (hs.symm.trans <| hn' k hk) (by simp)
  case inr.inl =>
    subst hk
    exact Option.some.inj (hs.symm.trans hs')
  case inr.inr => exact absurd (hs'.symm.trans <| hn k' hk) (by simp)

-- The search ends if and only if it gets to an element that yields a result.
theorem exists_isSome_iff : (∃ fuel, (search stop next fuel a).isSome) ↔ ∃ k, (stop (next^[k] a)).isSome := by
  constructor
  case mp =>
    intro ⟨fuel, h⟩
    have ⟨b, h⟩ := Option.isSome_iff_exists.mp h
    have ⟨k, _, _, hs⟩ := eq_some_iff.mp h
    exact ⟨k, by rw [hs]; rfl⟩
  case mpr =>
    intro ⟨k, h⟩
    induction k generalizing a
    case zero =>
      have ⟨b, h⟩ : ∃ b, stop a = some b := Option.isSome_iff_exists.mp h
      exact ⟨1, by rw [of_stop h]; rfl⟩
    case succ k ih =>
      cases ha : stop a
      case some b => exact ⟨1, by rw [of_stop ha]; rfl⟩
      case none =>
        have ⟨fuel, hf⟩ := ih h
        exact ⟨fuel + 1, by rwa [of_next ha]⟩

end Search
