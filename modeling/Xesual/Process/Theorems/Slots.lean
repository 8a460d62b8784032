import Xesual.Process.Ownership
import Xesual.Process.Theorems.Machine

namespace ProcessManagement

open Function

variable {ι : Type} [DecidableEq ι]

-- The process of the processor has exited, but its slot is still accessed.
@[simp]
def Pc.Exited : Pc → Bool
  | .freed | .returning => true
  | _ => false

-- The processor that takes the step.
def Action.cpu : Action ι → ι
  | .schedule i | .create i | .trap i _ | .proceed i _ => i

namespace Machine

variable {σ σ' : Machine ι} {a : Action ι} {i j : ι} {b : Bool} {p : Slot}

-- A step changes the state of one processor. The processor gets to the end of `exitCurrentProcess` by freeing its
-- slot.
theorem step_cases (h : step σ a = some σ') : ∃ table lock c,
    σ' = ⟨table, lock, update σ.cpu a.cpu c⟩ ∧
    (c.pc.Exited → (σ.cpu a.cpu).pc = .freeing ∨ (σ.cpu a.cpu).pc = .freed) := by
  cases a
  case schedule i | create i =>
    cases hp : (σ.cpu i).pc <;> simp only [step, hp, Option.some.injEq, reduceCtorEq] at h
    case idle => exact ⟨_, _, _, h.symm, by simp⟩
  case trap i n =>
    cases hp : (σ.cpu i).pc <;> simp only [step, hp, Option.some.injEq, reduceCtorEq] at h
    case user =>
      refine ⟨_, _, _, h.symm, ?_⟩
      simp only [trapHandler]
      split <;> try split
      all_goals simp
  case proceed i b =>
    cases hp : (σ.cpu i).pc <;> simp only [step, hp, Option.some.injEq, reduceCtorEq] at h
    case acquiring | exiting | allocating | publishing =>
      simp only [acquire, Option.map_eq_some_iff, Option.ite_none_right_eq_some, Option.some.injEq] at h
      obtain ⟨_, ⟨_, h⟩, h'⟩ := h
      subst h
      exact ⟨_, _, _, h'.symm, by simp⟩
    case freeing | scanning | initializing =>
      split at h <;> cases h <;> exact ⟨_, _, _, rfl, by simp [Action.cpu, hp]⟩
    case scanned q =>
      cases q <;> cases h <;> exact ⟨_, _, _, rfl, by simp⟩
    case returning =>
      simp only [pauseProcess] at h
      split at h <;> exact ⟨_, _, _, h.symm, by simp⟩
    case condition | examining | pausing => exact ⟨_, _, _, h.symm, by split <;> simp⟩
    all_goals exact ⟨_, _, _, h.symm, by simp [Action.cpu, hp]⟩

-- A slot is written to by nobody but the processors whose actions are in `writes`.
theorem table_of_step (h : step σ a = some σ') (hp : σ.writes a ≠ some p) : σ'.table p = σ.table p := by
  cases a
  case schedule i | create i | trap i n =>
    cases hc : (σ.cpu i).pc <;> simp only [step, hc, Option.some.injEq, reduceCtorEq] at h
    all_goals exact h ▸ rfl
  case proceed i b =>
    cases hc : (σ.cpu i).pc <;>
      simp only [step, writes, hc, Option.some.injEq, reduceCtorEq, ne_eq, not_false_eq_true] at h hp
    case acquiring | exiting | allocating | publishing =>
      simp only [acquire, Option.map_eq_some_iff, Option.ite_none_right_eq_some, Option.some.injEq] at h
      obtain ⟨_, ⟨_, h⟩, h'⟩ := h
      subst h
      exact h' ▸ rfl
    case dispatching q | marking q => exact h ▸ setState_table_of_ne (ne_comm.mp hp)
    case freeing =>
      split at h <;> cases h
      case h_1 q hq => exact setState_table_of_ne (by simpa [hq, eq_comm] using hp)
      case h_2      => rfl
    case returning =>
      subst h
      simp only [pauseProcess]
      split
      case h_1 q r hq hr =>
        have hne : p ≠ q := by simpa [hq, hr, eq_comm] using hp
        simp [goto, setCPU, setSlot, hne]
      case h_2 => rfl
    case scanning =>
      split at h <;> cases h
      case h_1 q hq => exact setState_table_of_ne (by simpa [hq, eq_comm] using hp)
      case h_2      => rfl
    case scanned q =>
      cases q <;> cases h <;> rfl
    case initializing q =>
      split at h <;> cases h
      case isTrue  => simp [goto, setCPU, setSlot, ne_comm.mp hp]
      case isFalse => exact setState_table_of_ne (ne_comm.mp hp)
    all_goals exact h ▸ rfl

end Machine

namespace History

variable {π : Stacks ι} {η η' : History ι} {a : Action ι}

structure Invariant (η : History ι) : Prop where
  machine : η.machine.Invariant
  freed   : ∀ i p, p ∈ η.freed i ↔ (η.machine.cpu i).pc.Exited ∧ (η.machine.cpu i).currentProcess = some p
  task    : η.task = η.stored

omit [DecidableEq ι] in
theorem start_invariant : (start : History ι).Invariant where
  machine := Machine.start_invariant
  freed   := by simp [start, Machine.start]
  task    := rfl

-- A step of a processor that neither frees its slot nor leaves it thereafter.
theorem freed_iff_of_step (inv : η.Invariant) {σ : Machine ι} (h : η.machine.step a = some σ)
    (hn : (η.machine.cpu a.cpu).pc ∉ [.freeing, .freed, .returning]) (i : ι) (p : Slot) :
    p ∈ η.freed i ↔ (σ.cpu i).pc.Exited ∧ (σ.cpu i).currentProcess = some p := by
  rw [inv.freed]
  have ⟨table, lock, c, hs, hc⟩ := Machine.step_cases h
  subst hs
  simp only [List.mem_cons, List.not_mem_nil, or_false, not_or] at hn
  by_cases hi : i = a.cpu
  case pos =>
    have he : ¬c.pc.Exited := fun he => (hc he).elim hn.left hn.right.left
    have hp : ¬(η.machine.cpu a.cpu).pc.Exited := by
      cases hp : (η.machine.cpu a.cpu).pc <;> simp_all
    simp only [hi, update_self, he, hp, Bool.false_eq_true, false_and]
  case neg => simp only [update_of_ne hi]

theorem step_invariant (inv : η.Invariant) (hn : NotReturning η a) (h : step π η a = some η') :
    η'.Invariant := by
  rw [step, Option.map_eq_some_iff] at h
  obtain ⟨σ, hs, h⟩ := h
  have hm := Machine.step_invariant inv.machine hn hs
  have hiff := freed_iff_of_step inv hs
  cases a
  case schedule i | create i | trap i n =>
    subst h
    refine ⟨hm, hiff ?_, inv.task⟩
    cases hp : (η.machine.cpu i).pc <;> simp only [Machine.step, hp, reduceCtorEq] at hs
    all_goals simp [Action.cpu, hp]
  case proceed i b =>
    subst h
    cases hp : (η.machine.cpu i).pc <;> simp only [record, hp]
    case initializing p =>
      have hiff := hiff (by simp [Action.cpu, hp])
      split
      case isTrue  => exact ⟨hm, hiff, by rw [inv.task]⟩
      case isFalse => exact ⟨hm, hiff, inv.task⟩
    case freeing =>
      have hv := inv.machine.valid i |>.currentProcess (by simp [hp])
      obtain ⟨p, hc⟩ := Option.isSome_iff_exists.mp hv
      simp only [Machine.step, hp, hc, Option.some.injEq] at hs ⊢
      subst hs
      refine ⟨hm, ?_, inv.task⟩
      intro j q
      by_cases hj : j = i
      case pos =>
        have hn : q ∉ η.freed i := by simp [inv.freed, hp]
        simp [Machine.goto, Machine.setCPU, hj, hc, hn, eq_comm]
      case neg => simpa [Machine.goto, Machine.setCPU, hj] using inv.freed j q
    case freed =>
      simp only [Machine.step, hp, Option.some.injEq] at hs
      subst hs
      refine ⟨hm, ?_, inv.task⟩
      intro j q
      rw [inv.freed]
      by_cases hj : j = i <;> simp [Machine.goto, Machine.setCPU, Machine.release, hj, hp]
    case returning => exact absurd hp hn
    all_goals exact ⟨hm, hiff (by simp [Action.cpu, hp]), inv.task⟩

-- The processor does not write to its old slot, unless it switches from it to the scheduler.
theorem leavesAlone_iff (inv : η.Invariant) (h : step π η a = some η') : LeavesAlone η a ↔ NotReturning η a := by
  cases a
  case schedule | create | trap => simp [LeavesAlone, NotReturning, Machine.NotReturning]
  case proceed i b =>
    simp only [LeavesAlone, NotReturning, Machine.NotReturning, inv.freed]
    cases hp : (η.machine.cpu i).pc <;> simp [Machine.writes, hp]
    case returning =>
      have hv := inv.machine.valid i
      obtain ⟨p, hc⟩ := Option.isSome_iff_exists.mp <| hv.currentProcess (by simp [hp])
      obtain ⟨q, hs⟩ := Option.isSome_iff_exists.mp <| hv.schedulerTask (by simp [hp])
      simp [hc, hs]

variable {as : List (Action ι)}

-- A slot is left alone by the processor that has freed it, and its process is continued where its owner wants it to
-- be, if and only if no processor switches from a process that has exited to the scheduler.
theorem leavesAlone_iff_notReturning (e : Execution (step π) Execution.Free start as η) :
    ((∀ as' a η', as' ++ [a] <+: as → Execution (step π) Execution.Free start as' η' → η'.LeavesAlone a) ∧
      ∀ as' η', as' <+: as → Execution (step π) Execution.Free start as' η' → η'.Kept) ↔
    Execution (step π) NotReturning start as η := by
  have hiff := e.steps_iff start_invariant step_invariant leavesAlone_iff
  constructor
  case mp  => exact fun h => hiff.mp h.left
  case mpr =>
    intro e
    refine ⟨hiff.mpr e, ?_⟩
    intro as' η' hp e' i p _
    have inv := (e.of_prefix hp e').invariant start_invariant step_invariant
    exact congrFun inv.task p

instance {a : Action ι} : Decidable (NotReturning η a) :=
  inferInstanceAs <| Decidable (η.machine.NotReturning a)

-- A processor creates a process, switches to it, and frees its slot when it causes a page fault.
theorem leavesAlone_iff_notReturning_freed : ∃ η : History (Fin 2),
    Execution (step ⟨fun k => 0x1000 * (k + 1), fun _ => 0x100000⟩) NotReturning start
      (.create 0 :: List.replicate 7 (.proceed 0 true) ++ .schedule 0 :: List.replicate 8 (.proceed 0 true) ++
        .trap 0 14 :: List.replicate 3 (.proceed 0 true)) η ∧
    η.freed 0 = [0] ∧ η.Kept := by
  have hr : (Execution.runIf (step ⟨fun k => 0x1000 * (k + 1), fun _ => 0x100000⟩) NotReturning
      (start : History (Fin 2))
      (Action.create 0 :: List.replicate 7 (Action.proceed 0 true) ++
        Action.schedule 0 :: List.replicate 8 (Action.proceed 0 true) ++
        Action.trap 0 14 :: List.replicate 3 (Action.proceed 0 true))).map (·.freed 0) = some [0] := by decide
  have ⟨η, hr, hp⟩ := Option.map_eq_some_iff.mp hr
  have e := Execution.of_runIf hr
  exact ⟨η, e, hp, (leavesAlone_iff_notReturning e.free).mpr e |>.right _ _ (List.prefix_refl _) e.free⟩

-- After the slot has been freed by the first processor, it is reused by the second one. Then the first one
-- overwrites the pointer that is stored in the slot.
theorem not_leavesAlone : ¬∀ (π : Stacks (Fin 2)) (as : List (Action (Fin 2))) (η : History (Fin 2)),
    Execution (step π) Execution.Free start as η →
    (∀ as' a η', as' ++ [a] <+: as → Execution (step π) Execution.Free start as' η' → η'.LeavesAlone a) ∧
      ∀ as' η', as' <+: as → Execution (step π) Execution.Free start as' η' → η'.Kept := by
  intro h
  have hr : (Execution.run (step ⟨fun k => 0x1000 * (k + 1), fun _ => 0x100000⟩) (start : History (Fin 2))
      (Action.create 0 :: List.replicate 7 (Action.proceed 0 true) ++
        Action.schedule 0 :: List.replicate 8 (Action.proceed 0 true) ++
        Action.trap 0 14 :: List.replicate 3 (Action.proceed 0 true) ++
        Action.create 1 :: List.replicate 7 (Action.proceed 1 true) ++ Action.proceed 0 true ::
        Action.schedule 1 :: List.replicate 6 (Action.proceed 1 true))).map
        (fun η => ((η.machine.cpu 1).pc, η.task 0, η.stored 0)) =
      some (.pausing 0, ⟨0x100000, 0x2f50⟩, ⟨0x2f10, 0x2f50⟩) := by decide
  have ⟨η, hr, hp⟩ := Option.map_eq_some_iff.mp hr
  simp only [Prod.mk.injEq] at hp
  have e := Execution.of_run hr
  have := h _ _ η e |>.right _ _ (List.prefix_refl _) e 1 0 hp.left
  simp [hp.right] at this

end History
end ProcessManagement
