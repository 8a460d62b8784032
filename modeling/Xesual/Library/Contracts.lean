import Mathlib

-- Code is a list of instructions, and an instruction is known by its contract: the states in which it may be
-- executed, and the states in which the rest of the code may find itself thereafter.

structure Contract (S : Type*) where
  pre  : S → Prop
  post : S → S → Prop

namespace Contract

variable {I S : Type*} {contract : I → Contract S} {i : I} {is js : List I} {P Q : S → Prop} {s : S}

-- The states from which the code can be executed, and after which `Q` holds if the end of the code is reached.
def wp (contract : I → Contract S) : List I → (S → Prop) → S → Prop
  | [],      Q, s => Q s
  | i :: is, Q, s => (contract i).pre s ∧ ∀ s', (contract i).post s s' → wp contract is Q s'

@[simp]
theorem wp_nil : wp contract [] Q s ↔ Q s := Iff.rfl

@[simp]
theorem wp_cons :
    wp contract (i :: is) Q s ↔ (contract i).pre s ∧ ∀ s', (contract i).post s s' → wp contract is Q s' := Iff.rfl

theorem wp_mono (h : ∀ s, P s → Q s) (hw : wp contract is P s) : wp contract is Q s := by
  induction is generalizing s
  case nil       => exact h _ hw
  case cons _ ih => exact ⟨hw.left, fun _ hp => ih <| hw.right _ hp⟩

theorem wp_append : wp contract (is ++ js) Q s ↔ wp contract is (wp contract js Q) s := by
  induction is generalizing s
  case nil       => rfl
  case cons _ ih => simp only [List.cons_append, wp_cons, ih]

-- An instruction can be replaced by code that meets its contract.
theorem wp_replace (h : (contract i).pre s → wp contract js ((contract i).post s) s)
    (hw : wp contract (i :: is) Q s) : wp contract (js ++ is) Q s :=
  wp_append.mpr <| wp_mono hw.right (h hw.left)

end Contract
