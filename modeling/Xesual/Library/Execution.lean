import Mathlib

-- Executions of a system whose atomic steps are given by a partial function `step`. An action names
-- everything that is not determined by the state: who takes the step and with which input.

variable {σ α : Type*} {step : σ → α → Option σ} {ok ok' : σ → α → Prop} {s₀ s s' : σ} {as as' : List α}

-- `Execution step ok s₀ as s` means that the actions `as` lead from `s₀` to `s`, and that every action
-- meets the condition `ok` in the state in which it is taken.
inductive Execution (step : σ → α → Option σ) (ok : σ → α → Prop) (s₀ : σ) : List α → σ → Prop
  | refl : Execution step ok s₀ [] s₀
  | snoc {as : List α} {s s' : σ} {a : α} :
    Execution step ok s₀ as s → ok s a → step s a = some s' → Execution step ok s₀ (as ++ [a]) s'

namespace Execution

-- The condition under which every action is allowed.
def Free : σ → α → Prop := fun _ _ => True

theorem invariant {Inv : σ → Prop} (init : Inv s₀)
    (preserved : ∀ {s s' a}, Inv s → ok s a → step s a = some s' → Inv s')
    (e : Execution step ok s₀ as s) : Inv s := by
  induction e
  case refl           => exact init
  case snoc ho hs inv => exact preserved inv ho hs

theorem weaken (h : ∀ s a, ok s a → ok' s a) (e : Execution step ok s₀ as s) :
    Execution step ok' s₀ as s := by
  induction e
  case refl           => exact .refl
  case snoc ho hs ih  => exact ih.snoc (h _ _ ho) hs

theorem free (e : Execution step ok s₀ as s) : Execution step Free s₀ as s :=
  e.weaken (fun _ _ _ => trivial)

theorem eq_of_nil (e : Execution step ok s₀ [] s) : s = s₀ := by
  generalize h : ([] : List α) = l at e
  cases e
  case refl => rfl
  case snoc => simp at h

-- The last action of an execution.
theorem snoc_inv {a : α} (e : Execution step ok s₀ (as ++ [a]) s') :
    ∃ s, Execution step ok s₀ as s ∧ ok s a ∧ step s a = some s' := by
  generalize h : as ++ [a] = l at e
  cases e
  case refl => simp at h
  case snoc e ho hs =>
    have ⟨h₁, h₂⟩ := List.append_inj' h rfl
    simp only [List.cons.injEq, and_true] at h₂
    subst h₁ h₂
    exact ⟨_, e, ho, hs⟩

theorem deterministic (e₁ : Execution step ok s₀ as s) (e₂ : Execution step ok' s₀ as s') : s = s' := by
  induction e₁ generalizing s'
  case refl => exact e₂.eq_of_nil.symm
  case snoc hs ih =>
    have ⟨_, e₂, _, hs'⟩ := e₂.snoc_inv
    cases ih e₂
    exact Option.some.inj <| hs.symm.trans hs'

theorem exists_prefix (e : Execution step ok s₀ as s) (h : as' <+: as) : ∃ s', Execution step ok s₀ as' s' := by
  induction e
  case refl => exact ⟨s₀, List.prefix_nil.mp h ▸ .refl⟩
  case snoc e ho hs ih =>
    cases List.prefix_concat_iff.mp h
    case inl h => exact ⟨_, h ▸ e.snoc ho hs⟩
    case inr h => exact ih h

-- A prefix of an execution is an execution, and its last state is determined by its actions.
theorem of_prefix (e : Execution step ok s₀ as s) (h : as' <+: as) (e' : Execution step ok' s₀ as' s') :
    Execution step ok s₀ as' s' :=
  have ⟨_, e⟩ := e.exists_prefix h
  e.deterministic e' ▸ e

-- If the steps that meet the condition preserve an invariant which implies `P`, and every other step destroys
-- `P`, then `P` holds in all states of an execution if and only if all steps meet the condition.
theorem always_iff {Inv P : σ → Prop} (e : Execution step Free s₀ as s) (init : Inv s₀)
    (preserved : ∀ {s s' a}, Inv s → ok s a → step s a = some s' → Inv s') (sound : ∀ {s}, Inv s → P s)
    (complete : ∀ {s s' a}, Inv s → ¬ok s a → step s a = some s' → ¬P s') :
    (∀ as' s', as' <+: as → Execution step Free s₀ as' s' → P s') ↔ Execution step ok s₀ as s := by
  constructor
  case mp =>
    intro h
    induction e
    case refl => exact .refl
    case snoc e ho hs ih =>
      have e' := ih fun as' s' hp => h as' s' (hp.trans <| List.prefix_append ..)
      apply e'.snoc _ hs
      by_contra hn
      exact complete (e'.invariant init preserved) hn hs <| h _ _ (List.prefix_refl _) (e.snoc ho hs)
  case mpr =>
    intro e as' s' hp e'
    exact sound <| (e.of_prefix hp e').invariant init preserved

-- If a property of steps is equivalent to the condition, as long as the condition has been met before, then all
-- steps of an execution have the property if and only if they meet the condition.
theorem steps_iff {Inv : σ → Prop} {Q : σ → α → Prop} (e : Execution step Free s₀ as s) (init : Inv s₀)
    (preserved : ∀ {s s' a}, Inv s → ok s a → step s a = some s' → Inv s')
    (iff : ∀ {s s' a}, Inv s → step s a = some s' → (Q s a ↔ ok s a)) :
    (∀ as' a s', as' ++ [a] <+: as → Execution step Free s₀ as' s' → Q s' a) ↔ Execution step ok s₀ as s := by
  constructor
  case mp =>
    intro h
    induction e
    case refl => exact .refl
    case snoc e ho hs ih =>
      have e' := ih fun as' a s' hp => h as' a s' (hp.trans <| List.prefix_append ..)
      have inv := e'.invariant init preserved
      exact e'.snoc (iff inv hs |>.mp <| h _ _ _ (List.prefix_refl _) e) hs
  case mpr =>
    intro e as' a s' hp e'
    have ⟨_, e⟩ := e.exists_prefix hp
    have ⟨_, e, ho, hs⟩ := e.snoc_inv
    cases e.deterministic e'
    exact iff (e.invariant init preserved) hs |>.mpr ho

theorem trans (e₁ : Execution step ok s₀ as s) (e₂ : Execution step ok s as' s') :
    Execution step ok s₀ (as ++ as') s' := by
  induction e₂
  case refl          => simpa using e₁
  case snoc ho hs ih => rw [← List.append_assoc]; exact ih.snoc ho hs

-- The same steps as a function, to evaluate an execution on a concrete list of actions.
def run (step : σ → α → Option σ) (s : σ) : List α → Option σ
  | []      => some s
  | a :: as => (step s a).bind (run step · as)

theorem of_run (h : run step s as = some s') : Execution step Free s as s' := by
  induction as generalizing s
  case nil =>
    cases h
    exact .refl
  case cons a as ih =>
    have ⟨_, hs, h⟩ := Option.bind_eq_some_iff.mp h
    exact (Execution.refl.snoc trivial hs).trans (ih h)

-- An execution all of whose actions are checked to meet the condition.
def runIf (step : σ → α → Option σ) (ok : σ → α → Prop) [∀ s a, Decidable (ok s a)] (s : σ) :
    List α → Option σ
  | []      => some s
  | a :: as => if ok s a then (step s a).bind (runIf step ok · as) else none

theorem of_runIf [∀ s a, Decidable (ok s a)] (h : runIf step ok s as = some s') :
    Execution step ok s as s' := by
  induction as generalizing s
  case nil =>
    cases h
    exact .refl
  case cons a as ih =>
    have ⟨ho, h⟩ := Option.ite_none_right_eq_some.mp h
    have ⟨_, hs, h⟩ := Option.bind_eq_some_iff.mp h
    exact (Execution.refl.snoc ho hs).trans (ih h)

end Execution
