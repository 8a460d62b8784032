import Xesual.PhysicalMemory.Locking

namespace PhysicalMemoryManagement.Locking.Machine

open Function

variable {ι : Type} {σ σ' : Machine ι} {bytes : Bytes} {memory : State}

-- Having acquired the lock, the processor has not released it yet.
def Owner (σ : Machine ι) (i : ι) : Prop :=
  σ.Inside i ∨ σ.pc i = .leaving ∨ σ.pc i = .releasing

-- The state of the system until the lock is released for the first time.
structure Invariant (σ : Machine ι) : Prop where
  usesLock : σ.usesLock
  held     : ∀ i, σ.Owner i → σ.bytes.load lock 2 ≠ 0
  unique   : ∀ i j, σ.Owner i → σ.Owner j → i = j

section Bytes

variable {m : Bytes}

theorem usingLock_thereIsNowMoreThanOneProcessor :
    (thereIsNowMoreThanOneProcessor m).load usingLock 1 = 1 :=
  Bytes.load_store

theorem usingLock_testAndSet : (Spinlock.testAndSet m lock).fst.load usingLock 1 = m.load usingLock 1 :=
  Bytes.load_store_of_disjoint (.inr le_rfl)

theorem held_testAndSet : (Spinlock.testAndSet m lock).fst.load lock 2 = 1 :=
  Bytes.load_store

-- The flag `usingLock` lies within the four bytes that are stored by `release`.
theorem usingLock_release : (Spinlock.release m lock).load usingLock 1 = 0 :=
  Bytes.load_store_of_le (a := 0) (b := 2) (by decide)

end Bytes

theorem usesLock_iff : σ.usesLock ↔ σ.bytes.load usingLock 1 ≠ 0 := by
  simp [usesLock]

theorem start_usesLock : (start bytes memory : Machine ι).usesLock := by
  simp [usesLock, start, usingLock_thereIsNowMoreThanOneProcessor]

theorem start_invariant : (start bytes memory : Machine ι).Invariant where
  usesLock := start_usesLock
  held     := by simp [Owner, Inside, start]
  unique   := by simp [Owner, Inside, start]

variable [DecidableEq ι] {fuel : Nat} {i j : ι} {a : Action ι} {pc : Pc}

instance : Decidable (NotReleasing σ a) :=
  match a with
  | .call ..   => isTrue trivial
  | .proceed i => inferInstanceAs <| Decidable (σ.pc i ≠ .releasing)

theorem owner_goto : (σ.goto i pc).Owner j ↔
    if j = i then (∃ c, pc = .inside c) ∨ pc = .leaving ∨ pc = .releasing else σ.Owner j := by
  by_cases h : j = i <;> simp [Owner, Inside, goto, h]

namespace Invariant

omit [DecidableEq ι] in
-- A step after which there are no further owners.
theorem of_owner (inv : σ.Invariant) (hu : σ'.usesLock)
    (hh : σ.bytes.load lock 2 ≠ 0 → σ'.bytes.load lock 2 ≠ 0) (ho : ∀ j, σ'.Owner j → σ.Owner j) :
    σ'.Invariant where
  usesLock := hu
  held     := fun j hj => hh <| inv.held j (ho j hj)
  unique   := fun j k hj hk => inv.unique j k (ho j hj) (ho k hk)

theorem goto (inv : σ.Invariant)
    (h : (∃ c, pc = .inside c) ∨ pc = .leaving ∨ pc = .releasing → σ.Owner i) : (σ.goto i pc).Invariant := by
  refine inv.of_owner inv.usesLock id ?_
  intro j hj
  rw [owner_goto] at hj
  split at hj
  case isTrue he => exact he ▸ h hj
  case isFalse   => exact hj

-- A processor can only acquire the lock if there is no owner.
theorem acquire (inv : σ.Invariant) {c : Call} :
    ({ σ with bytes := (Spinlock.testAndSet σ.bytes lock).fst }.goto i
      (if (Spinlock.testAndSet σ.bytes lock).snd then .inside c else .acquiring c)).Invariant := by
  have hu := usesLock_iff.mp inv.usesLock
  rw [← usingLock_testAndSet] at hu
  have hh : (Spinlock.testAndSet σ.bytes lock).fst.load lock 2 ≠ 0 := by simp [held_testAndSet]
  by_cases h : σ.bytes.load lock 2 = 0
  case pos =>
    have ho {pc : Pc} {j : ι} (hj : (σ.goto i pc).Owner j) : j = i := by
      rw [owner_goto] at hj
      split at hj
      case isTrue he => exact he
      case isFalse   => exact absurd h (inv.held j hj)
    exact ⟨usesLock_iff.mpr hu, fun _ _ => hh, fun j k hj hk => (ho hj).trans (ho hk).symm⟩
  case neg =>
    refine inv.of_owner (usesLock_iff.mpr hu) (fun _ => hh) ?_
    intro j hj
    simp only [owner_goto, Spinlock.testAndSet, h, decide_false, Bool.false_eq_true, ↓reduceIte] at hj
    split at hj
    case isTrue  => simp at hj
    case isFalse => exact hj

end Invariant

theorem step_invariant (inv : σ.Invariant) (hr : NotReleasing σ a) (h : step fuel σ a = some σ') :
    σ'.Invariant := by
  cases a
  case call i c =>
    cases hp : σ.pc i <;> simp only [step, hp, Option.some.injEq, reduceCtorEq] at h
    case idle => exact h ▸ inv.goto (by simp)
  case proceed i =>
    cases hp : σ.pc i <;>
      simp only [step, hp, inv.usesLock, ↓reduceIte, Option.some.injEq, reduceCtorEq] at h
    case entering c  => exact h ▸ inv.goto (by simp)
    case acquiring c => exact h ▸ inv.acquire
    case inside c    =>
      have ⟨m, _, h⟩ := Option.map_eq_some_iff.mp h
      have inv' : ({ σ with memory := m } : Machine ι).Invariant := inv.of_owner inv.usesLock id (fun _ => id)
      exact h ▸ inv'.goto (fun _ => .inl ⟨c, hp⟩)
    case leaving     => exact h ▸ inv.goto (fun _ => .inr <| .inl hp)
    case releasing   => contradiction

-- Once the flag `usingLock` has been cleared, it stays like that. It is cleared by `release`.
theorem usesLock_of_step (h : step fuel σ a = some σ') (hu : σ'.usesLock) : σ.usesLock ∧ NotReleasing σ a := by
  cases a
  case call i c =>
    cases hp : σ.pc i <;> simp only [step, hp, Option.some.injEq, reduceCtorEq] at h
    case idle => exact ⟨by subst h; exact hu, trivial⟩
  case proceed i =>
    cases hp : σ.pc i <;> simp only [step, hp, Option.some.injEq, reduceCtorEq] at h
    case entering | leaving => exact ⟨by subst h; exact hu, by simp [NotReleasing, hp]⟩
    case acquiring c =>
      subst h
      have hu : (Spinlock.testAndSet σ.bytes lock).fst.load usingLock 1 ≠ 0 := usesLock_iff.mp hu
      rw [usingLock_testAndSet] at hu
      exact ⟨usesLock_iff.mpr hu, by simp [NotReleasing, hp]⟩
    case inside c =>
      have ⟨m, _, h⟩ := Option.map_eq_some_iff.mp h
      exact ⟨by subst h; exact hu, by simp [NotReleasing, hp]⟩
    case releasing =>
      subst h
      exact absurd usingLock_release (usesLock_iff.mp hu)

variable {as : List (Action ι)}

theorem execution_notReleasing (e : Execution (step fuel) Execution.Free (start bytes memory) as σ)
    (hu : σ.usesLock) : Execution (step fuel) NotReleasing (start bytes memory) as σ := by
  induction e
  case refl => exact .refl
  case snoc hs ih =>
    have ⟨hu, hr⟩ := usesLock_of_step hs hu
    exact (ih hu).snoc hr hs

-- The locking of the allocator stays on for as long as nobody releases the lock.
theorem locked_iff_notReleasing (e : Execution (step fuel) Execution.Free (start bytes memory) as σ) :
    σ.Locked ↔ Execution (step fuel) NotReleasing (start bytes memory) as σ := by
  constructor
  case mp  => exact fun h => execution_notReleasing e h.usesLock
  case mpr =>
    intro e
    have inv := e.invariant start_invariant step_invariant
    exact ⟨inv.usesLock, fun i j hi hj => inv.unique i j (.inl hi) (.inl hj)⟩

-- The second processor waits in the loop of `acquire` while the first one is about to allocate a page.
theorem locked_iff_notReleasing_allocatePages : ∃ σ : Machine (Fin 2),
    Execution (step 1) NotReleasing (start (fun _ => 0) ⟨fun _ => ⟨0, 0, 4⟩, 0xffff800000100000⟩)
      [.call 0 (.allocatePages 1), .call 1 (.freePages 0xffff800000200000 2), .proceed 0, .proceed 1, .proceed 0,
        .proceed 1, .proceed 1] σ ∧
    σ.pc 0 = .inside (.allocatePages 1) ∧ σ.pc 1 = .acquiring (.freePages 0xffff800000200000 2) ∧ σ.Locked := by
  have h : ∃ σ ∈ Execution.runIf (step 1) NotReleasing
      (start (fun _ => 0) ⟨fun _ => ⟨0, 0, 4⟩, 0xffff800000100000⟩ : Machine (Fin 2))
      [.call 0 (.allocatePages 1), .call 1 (.freePages 0xffff800000200000 2), .proceed 0, .proceed 1, .proceed 0,
        .proceed 1, .proceed 1],
      σ.pc 0 = .inside (.allocatePages 1) ∧ σ.pc 1 = .acquiring (.freePages 0xffff800000200000 2) := by
    decide +kernel
  have ⟨σ, hσ, h₀, h₁⟩ := h
  have e := Execution.of_runIf hσ
  exact ⟨σ, e, h₀, h₁, (locked_iff_notReleasing e.free).mpr e⟩

-- After the first processor has released the lock, both processors enter the allocator without acquiring it.
theorem not_locked : ¬∀ (fuel : Nat) (bytes : Bytes) (memory : State) (as : List (Action (Fin 2)))
    (σ : Machine (Fin 2)), Execution (step fuel) Execution.Free (start bytes memory) as σ → σ.Locked := by
  intro h
  have hr : (Execution.run (step 1) (start (fun _ => 0) ⟨fun _ => ⟨0, 0, 0⟩, 0⟩ : Machine (Fin 2))
      [.call 0 (.allocatePages 1), .proceed 0, .proceed 0, .proceed 0, .proceed 0, .proceed 0,
        .call 0 (.allocatePages 1), .proceed 0, .call 1 (.allocatePages 1), .proceed 1]).map
        (fun σ => [σ.pc 0, σ.pc 1]) =
      some [.inside (.allocatePages 1), .inside (.allocatePages 1)] := by decide
  have ⟨σ, hr, hp⟩ := Option.map_eq_some_iff.mp hr
  simp only [List.cons.injEq, and_true] at hp
  have := h _ _ _ _ σ (Execution.of_run hr) |>.unique 0 1 ⟨_, hp.left⟩ ⟨_, hp.right⟩
  exact absurd this (by decide)

end PhysicalMemoryManagement.Locking.Machine
