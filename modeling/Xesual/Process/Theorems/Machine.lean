import Xesual.Process.Machine

namespace ProcessManagement

-- Having acquired the lock, the processor has not released it yet.
@[simp]
def Pc.Holds : Pc → Bool
  | .processEntryPoint | .freeing | .freed | .scanning | .scanned _ | .marking _ | .marked => true
  | pc => pc.InLoop

-- The processor executes a process or the part of the kernel that is entered from it.
@[simp]
def Pc.InProcess : Pc → Bool
  | .processEntryPoint | .user | .exiting | .freeing | .freed | .returning => true
  | _ => false

@[simp]
def Pc.Assigned : Pc → Bool
  | .dispatching _ | .pausing _ => true
  | pc => pc.InProcess

-- A processor in a process knows that process, and knows how to get back to the scheduler.
structure CPUState.Valid (c : CPUState) : Prop where
  currentProcess : c.pc.Assigned → c.currentProcess.isSome
  schedulerTask  : c.pc.InProcess → c.schedulerTask.isSome

theorem Pc.holds_of_inLoop {pc : Pc} (h : pc.InLoop) : pc.Holds := by
  cases pc <;> first | exact h | contradiction

theorem CPUState.Valid.goto {c : CPUState} (h : c.Valid) {pc : Pc} (ha : pc.Assigned → c.pc.Assigned)
    (hp : pc.InProcess → c.pc.InProcess) : { c with pc }.Valid where
  currentProcess := fun h' => h.currentProcess (ha h')
  schedulerTask  := fun h' => h.schedulerTask (hp h')

namespace Machine

open Function

variable {ι : Type} {σ σ' : Machine ι}

-- The state of the system until a process returns to the scheduler for the first time.
structure Invariant (σ : Machine ι) : Prop where
  holds     : ∀ i, (σ.cpu i).pc.Holds → σ.lock = some i
  returning : ∀ i, (σ.cpu i).pc = .returning → σ.lock ≠ some i
  valid     : ∀ i, (σ.cpu i).Valid

theorem start_invariant : (start : Machine ι).Invariant where
  holds     := by simp [start]
  returning := by simp [start]
  valid _   := ⟨nofun, nofun⟩

theorem Invariant.disciplined (inv : σ.Invariant) : σ.Disciplined :=
  fun i h => inv.holds i (Pc.holds_of_inLoop h)

variable [DecidableEq ι] {i : ι} {a : Action ι} {c : CPUState} {pc : Pc} {table : Slot → ProcessInfo}
  {lock : Option ι}

instance : Decidable (NotReturning σ a) :=
  match a with
  | .schedule _ | .create _ | .trap .. => isTrue trivial
  | .proceed i _ => inferInstanceAs <| Decidable ((σ.cpu i).pc ≠ .returning)

namespace Invariant

-- A step of one processor, which does not change whether another one holds the lock.
theorem update (inv : σ.Invariant) (hl : ∀ j, j ≠ i → (lock = some j ↔ σ.lock = some j))
    (hh : c.pc.Holds → lock = some i) (hr : c.pc = .returning → lock ≠ some i) (hv : c.Valid) :
    Invariant ⟨table, lock, Function.update σ.cpu i c⟩ where
  holds j := by
    by_cases h : j = i
    case pos => simpa [h] using hh
    case neg => simpa [h, hl] using inv.holds j
  returning j := by
    by_cases h : j = i
    case pos => simpa [h] using hr
    case neg => simpa [h, hl] using inv.returning j
  valid j := by
    by_cases h : j = i
    case pos => simpa [h] using hv
    case neg => simpa [h] using inv.valid j

theorem keep (inv : σ.Invariant) (hh : c.pc.Holds → (σ.cpu i).pc.Holds) (hr : c.pc ≠ .returning) (hv : c.Valid) :
    Invariant ⟨table, σ.lock, Function.update σ.cpu i c⟩ :=
  inv.update (fun _ _ => Iff.rfl) (fun h => inv.holds i (hh h)) (fun h => absurd h hr) hv

-- A processor can only acquire the lock if nobody holds it.
theorem acquire (inv : σ.Invariant) (h : (σ.acquire i).map (·.goto i pc) = some σ') (hr : pc ≠ .returning)
    (ha : pc.Assigned → (σ.cpu i).pc.Assigned) (hp : pc.InProcess → (σ.cpu i).pc.InProcess) :
    σ'.Invariant := by
  simp only [Machine.acquire] at h
  split at h
  case isTrue hl =>
    simp only [Option.map_some, Option.some.injEq] at h
    subst h
    apply inv.update
    case hl =>
      intro j hj
      simp [Option.isNone_iff_eq_none.mp hl, hj.symm]
    case hh => exact fun _ => rfl
    case hr => exact fun h => absurd h hr
    case hv => exact (inv.valid i).goto ha hp
  case isFalse => simp at h

-- A processor that holds the lock releases it, after which nobody holds it.
theorem release (inv : σ.Invariant) (hh : (σ.cpu i).pc.Holds) (hn : ¬pc.Holds)
    (ha : pc.Assigned → (σ.cpu i).pc.Assigned) (hp : pc.InProcess → (σ.cpu i).pc.InProcess) :
    (σ.release.goto i pc).Invariant := by
  apply inv.update
  case hl =>
    intro j hj
    simp [Machine.release, inv.holds i hh, hj.symm]
  case hh => exact fun h => absurd h hn
  case hr => exact fun _ => nofun
  case hv => exact (inv.valid i).goto ha hp

theorem goto (inv : σ.Invariant) (hh : pc.Holds → (σ.cpu i).pc.Holds) (hr : pc ≠ .returning)
    (ha : pc.Assigned → (σ.cpu i).pc.Assigned) (hp : pc.InProcess → (σ.cpu i).pc.InProcess) :
    Invariant ⟨table, σ.lock, Function.update σ.cpu i { σ.cpu i with pc }⟩ :=
  inv.keep hh hr <| (inv.valid i).goto ha hp

theorem pauseScheduler (inv : σ.Invariant) {p : Slot} (h : (σ.cpu i).pc = .pausing p) :
    (σ.pauseScheduler i p).Invariant := by
  have hc := (inv.valid i).currentProcess (by simp [h])
  apply inv.keep
  case hh => simp [h]
  case hr => split <;> simp
  case hv => exact ⟨fun _ => hc, fun _ => rfl⟩

end Invariant

theorem step_invariant (inv : σ.Invariant) (hr : NotReturning σ a) (h : step σ a = some σ') :
    σ'.Invariant := by
  cases a
  case schedule i | create i =>
    cases hp : (σ.cpu i).pc <;> simp only [step, hp, Option.some.injEq, reduceCtorEq] at h
    case idle => exact h ▸ inv.goto nofun nofun nofun nofun
  case trap i n =>
    cases hp : (σ.cpu i).pc <;> simp only [step, hp, Option.some.injEq, reduceCtorEq] at h
    case user =>
      subst h
      apply inv.goto
      all_goals simp only [trapHandler, hp]; split <;> try split
      all_goals simp
  case proceed i b =>
    cases hp : (σ.cpu i).pc <;> simp only [step, hp, Option.some.injEq, reduceCtorEq] at h
    case entering => exact h ▸ inv.keep nofun nofun ⟨nofun, nofun⟩
    case acquiring | exiting | allocating | publishing =>
      exact inv.acquire h (by simp) (by simp [hp]) (by simp [hp])
    case condition p | examining p =>
      subst h
      apply inv.goto
      all_goals split <;> simp [hp]
    case assigning p => exact h ▸ inv.keep (by simp [hp]) nofun ⟨fun _ => rfl, nofun⟩
    case dispatching p | resumed p | marking p =>
      exact h ▸ inv.goto (by simp [hp]) (by simp) (by simp [hp]) (by simp [hp])
    case pausing p => exact h ▸ inv.pauseScheduler hp
    case releasing | processEntryPoint | freed | marked =>
      exact h ▸ inv.release (by simp [hp]) (by simp) (by simp [hp]) (by simp [hp])
    case returning => contradiction
    case scanned p =>
      cases p <;> cases h <;> exact inv.release (by simp [hp]) (by simp) (by simp [hp]) (by simp [hp])
    case freeing | scanning | initializing p =>
      split at h <;> cases h <;> exact inv.goto (by simp [hp]) (by simp) (by simp [hp]) (by simp [hp])

-- A process that exits has released the lock before it switches back to the loop of the scheduler.
theorem not_disciplined_of_returning (inv : σ.Invariant) (hr : ¬NotReturning σ a) (h : step σ a = some σ') :
    ¬σ'.Disciplined := by
  cases a
  case schedule | create | trap => exact absurd trivial hr
  case proceed i b =>
    have hp : (σ.cpu i).pc = .returning := by simpa [NotReturning] using hr
    have ⟨q, hq⟩ := Option.isSome_iff_exists.mp <| (inv.valid i).currentProcess (by simp [hp])
    have ⟨p, hs⟩ := Option.isSome_iff_exists.mp <| (inv.valid i).schedulerTask (by simp [hp])
    simp only [step, hp, pauseProcess, hq, hs, Option.some.injEq] at h
    subst h
    intro hd
    exact inv.returning i hp <| hd i (by simp [Machine.goto, setCPU])

variable {as : List (Action ι)}

-- The loop of the scheduler is executed under the lock at all times during an execution, unless there is a
-- process that returns to it.
theorem disciplined_iff_notReturning (e : Execution step Execution.Free start as σ) :
    (∀ as' σ', as' <+: as → Execution step Execution.Free start as' σ' → σ'.Disciplined) ↔
    Execution step NotReturning start as σ :=
  e.always_iff start_invariant step_invariant (fun inv => inv.disciplined) not_disciplined_of_returning

-- The processor `i` creates a process and switches to it, while `j` is waiting for the lock.
def entryRun (i j : ι) : List (Action ι) :=
  Action.create i :: List.replicate 7 (Action.proceed i true) ++
    [Action.schedule j, Action.schedule i, Action.proceed j true] ++
    List.replicate 8 (Action.proceed i true) ++ [Action.proceed j true, Action.proceed j true, Action.trap i 32]

-- As soon as the process has released the lock in `ProcessEntryPoint`, the other processor enters the loop.
theorem disciplined_iff_notReturning_schedule : ∃ σ : Machine (Fin 2),
    Execution step NotReturning start (entryRun 0 1) σ ∧
    (σ.cpu 0).pc = .user ∧ (σ.cpu 0).currentProcess = some 0 ∧ (σ.table 0).state = .running ∧
    (σ.cpu 1).pc.InLoop ∧ σ.Disciplined := by
  have h : ∃ σ ∈ Execution.runIf step NotReturning start (entryRun (0 : Fin 2) 1),
      (σ.cpu 0).pc = .user ∧ (σ.cpu 0).currentProcess = some 0 ∧ (σ.table 0).state = .running ∧
      (σ.cpu 1).pc.InLoop := by decide +kernel
  have ⟨σ, hσ, h₀, hp, hs, h₁⟩ := h
  have e := Execution.of_runIf hσ
  have hd := (disciplined_iff_notReturning e.free).mpr e _ _ (List.prefix_refl _) e.free
  exact ⟨σ, e, h₀, hp, hs, h₁, hd⟩

-- A processor creates a process, switches to it, and leaves it when it causes a page fault.
theorem not_disciplined : ¬∀ (as : List (Action (Fin 2))) (σ : Machine (Fin 2)),
    Execution step Execution.Free start as σ → σ.Disciplined := by
  intro h
  have hr : (Execution.run step (start : Machine (Fin 2))
      (Action.create 0 :: List.replicate 7 (Action.proceed 0 true) ++
        Action.schedule 0 :: List.replicate 8 (Action.proceed 0 true) ++
        Action.trap 0 14 :: List.replicate 4 (Action.proceed 0 true))).map (fun σ => ((σ.cpu 0).pc, σ.lock)) =
      some (.resumed 0, none) := by decide
  have ⟨σ, hr, hp⟩ := Option.map_eq_some_iff.mp hr
  simp only [Prod.mk.injEq] at hp
  have := h _ σ (Execution.of_run hr) 0 (by simp [hp.left])
  simp [hp.right] at this

end Machine
end ProcessManagement
