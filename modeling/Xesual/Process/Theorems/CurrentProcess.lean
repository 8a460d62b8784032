import Xesual.Process.Ownership
import Xesual.Process.Theorems.Machine

namespace ProcessManagement

-- Having acquired the lock, the processor has not released it yet. This is not the case for a processor that
-- has returned to the loop of the scheduler from a process.
@[simp]
def Pc.Locked : Pc → Bool
  | .resumed _ => false
  | pc => pc.Holds

namespace CPUState

-- What the processor knows about its own fields.
@[simp]
def Known (c : CPUState) : Prop :=
  match c.pc with
  | .dispatching p | .pausing p => c.currentProcess = some p
  | .processEntryPoint | .user | .exiting | .freeing | .freed | .returning =>
    c.currentProcess.isSome ∧ c.schedulerTask.isSome
  | .resumed _ => c.currentProcess.isSome
  | .halted => True
  | _ => c.currentProcess = none

-- The slot that the processor relies on, and the state that it takes the slot to be in.
@[simp]
def claim (c : CPUState) : Option (Slot × ProcessState) :=
  match c.pc with
  | .scanned (some p) | .initializing p | .publishing p | .marking p => some (p, .fresh)
  | .assigning p | .dispatching p => some (p, .runnable)
  | .pausing _ | .processEntryPoint | .user | .exiting | .freeing | .halted =>
    c.currentProcess.map (·, .running)
  | _ => none

variable {c : CPUState} {p : Slot} {s : ProcessState}

theorem claim_ne_unused (h : c.claim = some (p, s)) : s ≠ .unused := by
  unfold claim at h
  split at h <;> simp at h
  all_goals grind

-- A slot is only relied on to be runnable by a processor that holds the lock.
theorem locked_of_claim (h : c.claim = some (p, .runnable)) : c.pc.Locked := by
  unfold claim at h
  split at h <;> simp_all

end CPUState

namespace Machine

variable {ι : Type} {σ σ' : Machine ι}

-- The slots are divided among the processors.
structure Ownership (σ : Machine ι) : Prop where
  locked  : ∀ i, (σ.cpu i).pc.Locked → σ.lock = some i
  known   : ∀ i, (σ.cpu i).Known
  state   : ∀ i p s, (σ.cpu i).claim = some (p, s) → (σ.table p).state = s
  unique  : ∀ i j p s t, (σ.cpu i).claim = some (p, s) → (σ.cpu j).claim = some (p, t) → i = j
  current : ∀ i j p, (σ.cpu i).currentProcess = some p → (σ.cpu j).currentProcess = some p → i = j

theorem start_ownership : (start : Machine ι).Ownership where
  locked  := by simp [start]
  known   := by simp [start]
  state   := by simp [start]
  unique  := by simp [start]
  current := by simp [start]

theorem Ownership.accurate (o : σ.Ownership) : σ.Accurate where
  between i h := by
    have hk := o.known i
    cases hp : (σ.cpu i).pc <;> simp [hp] at h hk ⊢
    all_goals exact hk
  running i p h hc := by
    apply o.state i
    cases hp : (σ.cpu i).pc <;> simp [hp] at h ⊢
    all_goals simp [hc]
  unique := o.current

variable [DecidableEq ι] {i : ι} {a : Action ι} {c : CPUState} {pc : Pc} {table : Slot → ProcessInfo}
  {lock : Option ι}

namespace Ownership

-- A step of the processor `i`, after which no other processor claims the slot that is claimed by `i`.
theorem update (o : σ.Ownership) (hl : ∀ j, j ≠ i → σ.lock = some j → lock = some j)
    (hh : c.pc.Locked → lock = some i) (hk : c.Known)
    (hj : ∀ j, j ≠ i → ∀ p s, (σ.cpu j).claim = some (p, s) → (table p).state = s)
    (hi : ∀ p s, c.claim = some (p, s) → (table p).state = s)
    (hu : ∀ p s, c.claim = some (p, s) → ∀ j, j ≠ i → ∀ t, (σ.cpu j).claim ≠ some (p, t))
    (hc : ∀ p, c.currentProcess = some p → ∀ j, j ≠ i → (σ.cpu j).currentProcess ≠ some p) :
    Ownership ⟨table, lock, Function.update σ.cpu i c⟩ where
  locked j := by
    by_cases h : j = i
    case pos => simpa only [h, Function.update_self] using hh
    case neg => simpa only [ne_eq, h, not_false_iff, Function.update_of_ne] using hl j h ∘ o.locked j
  known j := by
    by_cases h : j = i
    case pos => simpa only [h, Function.update_self] using hk
    case neg => simpa only [ne_eq, h, not_false_iff, Function.update_of_ne] using o.known j
  state j := by
    by_cases h : j = i
    case pos => simpa only [h, Function.update_self] using hi
    case neg => simpa only [ne_eq, h, not_false_iff, Function.update_of_ne] using hj j h
  unique j k p s t := by
    by_cases h : j = i <;> by_cases h' : k = i
    all_goals simp only [ne_eq, h, h', not_false_iff, Function.update_self, Function.update_of_ne]
    · exact fun _ _ => trivial
    · exact fun hs ht => absurd ht (hu p s hs k h' t)
    · exact fun hs ht => absurd hs (hu p t ht j h s)
    · exact o.unique j k p s t
  current j k p := by
    by_cases h : j = i <;> by_cases h' : k = i
    all_goals simp only [ne_eq, h, h', not_false_iff, Function.update_self, Function.update_of_ne]
    · exact fun _ _ => trivial
    · exact fun hs ht => absurd ht (hc p hs k h')
    · exact fun hs ht => absurd hs (hc p ht j h)
    · exact o.current j k p

-- A step that does not affect the states of the slots.
theorem keep (o : σ.Ownership) (hl : ∀ j, j ≠ i → σ.lock = some j → lock = some j)
    (hh : c.pc.Locked → lock = some i) (hk : c.Known) (ht : ∀ p, (table p).state = (σ.table p).state)
    (hp : c.claim = none ∨ c.claim = (σ.cpu i).claim)
    (hc : c.currentProcess = none ∨ c.currentProcess = (σ.cpu i).currentProcess) :
    Ownership ⟨table, lock, Function.update σ.cpu i c⟩ := by
  have hclaim {p : Slot} {s : ProcessState} (h : c.claim = some (p, s)) : (σ.cpu i).claim = some (p, s) := by
    cases hp
    case inl hp => cases hp.symm.trans h
    case inr hp => exact hp ▸ h
  apply o.update hl hh hk
  case hj => exact fun j _ p s h => (ht p).trans (o.state j p s h)
  case hi => exact fun p s h => (ht p).trans (o.state i p s (hclaim h))
  case hu => exact fun p s h j hj t h' => hj (o.unique j i p t s h' (hclaim h))
  case hc =>
    intro p h j hj h'
    cases hc
    case inl hc => simp [hc] at h
    case inr hc => exact hj (o.current j i p h' (hc ▸ h))

-- A step without an effect on the lock or on the states of the slots.
theorem goto (o : σ.Ownership) (hh : pc.Locked → (σ.cpu i).pc.Locked)
    (ht : ∀ p, (table p).state = (σ.table p).state)
    (hk : { σ.cpu i with pc }.Known)
    (hp : { σ.cpu i with pc }.claim = none ∨ { σ.cpu i with pc }.claim = (σ.cpu i).claim) :
    Ownership ⟨table, σ.lock, Function.update σ.cpu i { σ.cpu i with pc }⟩ :=
  o.keep (fun _ _ h => h) (fun h => o.locked i (hh h)) hk ht hp (.inr rfl)

theorem acquire (o : σ.Ownership) (h : (σ.acquire i).map (·.goto i pc) = some σ')
    (hk : { σ.cpu i with pc }.Known)
    (hp : { σ.cpu i with pc }.claim = none ∨ { σ.cpu i with pc }.claim = (σ.cpu i).claim) :
    σ'.Ownership := by
  simp only [Machine.acquire] at h
  split at h
  case isTrue hl =>
    simp only [Option.map_some, Option.some.injEq] at h
    subst h
    apply o.keep
    case hl => simp [Option.isNone_iff_eq_none.mp hl]
    case hh => exact fun _ => rfl
    case hk => exact hk
    case ht => exact fun _ => rfl
    case hp => exact hp
    case hc => exact .inr rfl
  case isFalse => simp at h

theorem release (o : σ.Ownership) (hh : (σ.cpu i).pc.Locked) (hn : ¬pc.Locked)
    (hk : { σ.cpu i with pc }.Known)
    (hp : { σ.cpu i with pc }.claim = none ∨ { σ.cpu i with pc }.claim = (σ.cpu i).claim) :
    (σ.release.goto i pc).Ownership := by
  apply o.keep
  case hl =>
    intro j hj h
    cases (o.locked i hh).symm.trans h
    contradiction
  case hh => exact fun h => absurd h hn
  case hk => exact hk
  case ht => exact fun _ => rfl
  case hp => exact hp
  case hc => exact .inr rfl

-- The processor that claims a slot changes its state.
theorem setState (o : σ.Ownership) {p : Slot} {s t : ProcessState} (hp : (σ.cpu i).claim = some (p, s))
    (hh : pc.Locked → (σ.cpu i).pc.Locked) (hk : { σ.cpu i with pc }.Known)
    (hc : { σ.cpu i with pc }.claim = none ∨ { σ.cpu i with pc }.claim = some (p, t)) :
    ((σ.setState p t).goto i pc).Ownership := by
  have hne {j : ι} {q : Slot} {u : ProcessState} (hj : j ≠ i) (h : (σ.cpu j).claim = some (q, u)) : q ≠ p := by
    intro he
    exact hj (o.unique j i p u s (he ▸ h) hp)
  have hclaim {q : Slot} {u : ProcessState} (h : { σ.cpu i with pc }.claim = some (q, u)) : q = p ∧ u = t := by
    cases hc
    case inl hc => cases hc.symm.trans h
    case inr hc =>
      cases hc.symm.trans h
      exact ⟨rfl, rfl⟩
  apply o.update
  case hl => exact fun _ _ h => h
  case hh => exact fun h => o.locked i (hh h)
  case hk => exact hk
  case hj =>
    intro j hj q u h
    rw [setState_table_of_ne (hne hj h)]
    exact o.state j q u h
  case hi =>
    intro q u h
    have ⟨hq, hu⟩ := hclaim h
    simp [hq, hu]
  case hu =>
    intro q u h j hj v h'
    exact hne hj h' (hclaim h).left
  case hc => exact fun q h j hj h' => hj (o.current j i q h' h)

-- A slot that is not in use is not claimed by anyone.
theorem allocate (o : σ.Ownership) {p : Slot} (hp : (σ.cpu i).pc = .scanning)
    (hs : (σ.table p).state = .unused) : ((σ.setState p .fresh).goto i (.scanned (some p))).Ownership := by
  have hne {j : ι} {q : Slot} {u : ProcessState} (h : (σ.cpu j).claim = some (q, u)) : q ≠ p := by
    intro he
    exact CPUState.claim_ne_unused h <| (o.state j q u h).symm.trans (he ▸ hs)
  have hk := o.known i
  apply o.update
  case hl => exact fun _ _ h => h
  case hh => exact fun _ => o.locked i (by simp [hp])
  case hk => simpa [hp] using hk
  case hj =>
    intro j _ q u h
    rw [setState_table_of_ne (hne h)]
    exact o.state j q u h
  case hi =>
    intro q u h
    cases h
    simp
  case hu =>
    intro q u h j _ v h'
    cases h
    exact hne h' rfl
  case hc => exact fun q h j hj h' => hj (o.current j i q h' h)

-- As the processor holds the lock, nobody else can rely on the slot to be runnable.
theorem examine (o : σ.Ownership) {p : Slot} (hp : (σ.cpu i).pc = .examining p)
    (hs : (σ.table p).state = .runnable) : (σ.goto i (.assigning p)).Ownership := by
  have hl := o.locked i (by simp [hp])
  have hk := o.known i
  apply o.update
  case hl => exact fun _ _ h => h
  case hh => exact fun _ => hl
  case hk => simpa [hp] using hk
  case hj => exact fun j _ q u h => o.state j q u h
  case hi =>
    intro q u h
    cases h
    exact hs
  case hu =>
    intro q u h j hj v h'
    cases h
    have hv := o.state j p v h'
    rw [hs] at hv
    subst hv
    cases hl.symm.trans <| o.locked j (CPUState.locked_of_claim h')
    contradiction
  case hc => exact fun q h j hj h' => hj (o.current j i q h' h)

-- The slot has been left by all other processors.
theorem assign (o : σ.Ownership) {p : Slot} (hp : (σ.cpu i).pc = .assigning p)
    (hn : ∀ j, (σ.cpu j).pc.Leaving → (σ.cpu j).currentProcess ≠ some p) :
    (σ.setCPU i { σ.cpu i with pc := .dispatching p, currentProcess := some p }).Ownership := by
  have hl := o.locked i (by simp [hp])
  have hi : (σ.cpu i).claim = some (p, .runnable) := by simp [hp]
  apply o.update
  case hl => exact fun _ _ h => h
  case hh => exact fun _ => hl
  case hk => simp
  case hj => exact fun j _ q u h => o.state j q u h
  case hi =>
    intro q u h
    cases h
    exact o.state i p .runnable hi
  case hu =>
    intro q u h j hj v h'
    cases h
    exact hj (o.unique j i p v .runnable h' hi)
  case hc =>
    intro q h j hj h'
    cases h
    have hk := o.known j
    have hlj := o.locked j
    have hu := fun s t => o.unique j i p s t
    have := hn j
    cases hpj : (σ.cpu j).pc <;> simp_all

theorem pauseScheduler (o : σ.Ownership) {p : Slot} (hp : (σ.cpu i).pc = .pausing p) :
    (σ.pauseScheduler i p).Ownership := by
  have hk := o.known i
  apply o.keep
  case hl => exact fun _ _ h => h
  case hh => exact fun _ => o.locked i (by simp [hp])
  case hk => split <;> simp_all
  case ht => exact fun _ => rfl
  case hp => split <;> simp [hp]
  case hc => exact .inr rfl

theorem pauseProcess (o : σ.Ownership) (hp : (σ.cpu i).pc = .returning) : (σ.pauseProcess i).Ownership := by
  have hk := o.known i
  simp only [CPUState.Known, hp] at hk
  have ⟨q, hq⟩ := Option.isSome_iff_exists.mp hk.left
  have ⟨p, hs⟩ := Option.isSome_iff_exists.mp hk.right
  simp only [Machine.pauseProcess, hq, hs]
  apply o.goto
  case hh => simp
  case ht =>
    intro r
    by_cases h : r = q <;> simp [setSlot, h]
  case hk => simp [hq]
  case hp => simp

end Ownership

theorem step_ownership (o : σ.Ownership) (hn : Settled σ a) (h : step σ a = some σ') : σ'.Ownership := by
  cases a
  case schedule i | create i =>
    have hk := o.known i
    cases hp : (σ.cpu i).pc <;> simp only [step, hp, Option.some.injEq, reduceCtorEq] at h
    case idle => exact h ▸ o.goto (by simp) (fun _ => rfl) (by simpa [hp] using hk) (by simp)
  case trap i n =>
    have hk := o.known i
    cases hp : (σ.cpu i).pc <;> simp only [step, hp, Option.some.injEq, reduceCtorEq] at h
    case user =>
      subst h
      apply o.goto
      case ht => exact fun _ => rfl
      all_goals simp only [trapHandler]; split <;> try split
      all_goals simp_all
  case proceed i b =>
    have hk := o.known i
    cases hp : (σ.cpu i).pc <;> simp only [step, hp, Option.some.injEq, reduceCtorEq] at h
    case entering =>
      exact h ▸ o.keep (fun _ _ h => h) (by simp) (by simp) (fun _ => rfl) (.inl (by simp)) (.inl rfl)
    case acquiring | exiting | allocating | publishing =>
      exact o.acquire h (by simpa [hp] using hk) (by simp [hp])
    case condition p =>
      subst h
      apply o.goto
      case ht => exact fun _ => rfl
      all_goals split <;> simp_all
    case examining p =>
      subst h
      split
      case isTrue  => exact o.goto (by simp [hp]) (fun _ => rfl) (by simpa [hp] using hk) (by simp)
      case isFalse hs => exact o.examine hp (not_not.mp hs)
    case assigning p   => exact h ▸ o.assign hp (by simpa [Settled, SettledAt, hp] using hn)
    case dispatching p =>
      exact h ▸ o.setState (s := .runnable) (by simp [hp]) (by simp [hp]) (by simpa [hp] using hk)
        (by simp_all)
    case pausing p => exact h ▸ o.pauseScheduler hp
    case resumed p => simp [Settled, SettledAt, hp] at hn
    case releasing | processEntryPoint | freed | marked =>
      exact h ▸ o.release (by simp [hp]) (by simp) (by simpa [hp] using hk) (by simp [hp])
    case freeing =>
      simp only [CPUState.Known, hp] at hk
      obtain ⟨p, hc⟩ := Option.isSome_iff_exists.mp hk.left
      simp only [hc, Option.some.injEq] at h
      exact h ▸ o.setState (s := .running) (by simp [hp, hc]) (by simp [hp]) (by simpa using hk) (by simp)
    case returning => exact h ▸ o.pauseProcess hp
    case scanning =>
      split at h <;> cases h
      case h_1 p hf => exact o.allocate hp (by simpa using List.find?_some hf)
      case h_2 => exact o.goto (by simp [hp]) (fun _ => rfl) (by simpa [hp] using hk) (by simp)
    case scanned p =>
      cases p <;> cases h
      all_goals exact o.release (by simp [hp]) (by simp) (by simp_all) (by simp_all)
    case initializing p =>
      split at h <;> cases h
      case isTrue =>
        apply o.goto
        case hh => simp
        case ht =>
          intro q
          by_cases h : q = p <;> simp [setSlot, h]
        case hk => simpa [hp] using hk
        case hp => simp [hp]
      case isFalse =>
        exact o.setState (s := .fresh) (by simp [hp]) (by simp) (by simp) (by simp_all)
    case marking p =>
      exact h ▸ o.setState (s := .fresh) (by simp [hp]) (by simp [hp]) (by simpa [hp] using hk) (by simp)

-- An action that is not settled leads to a state in which `currentProcess` is wrong.
theorem not_accurate_of_not_settled (o : σ.Ownership) (hn : ¬Settled σ a) (h : step σ a = some σ') :
    ¬σ'.Accurate := by
  cases a
  case schedule | create | trap => exact absurd trivial hn
  case proceed i b =>
    have hk := o.known i
    cases hp : (σ.cpu i).pc <;> simp only [Settled, SettledAt, hp, not_true_eq_false, not_false_eq_true] at hn
    case resumed p =>
      -- The condition of the loop is evaluated while `currentProcess` is the process that has exited.
      simp only [CPUState.Known, hp] at hk
      simp only [step, hp, Option.some.injEq] at h
      subst h
      intro acc
      have hc : (σ.cpu i).currentProcess = none := by
        simpa [Machine.goto, setCPU] using acc.between i (by simp [Machine.goto, setCPU])
      simp [hc] at hk
    case assigning p =>
      obtain ⟨j, hj, hc⟩ : ∃ j, (σ.cpu j).pc.Leaving ∧ (σ.cpu j).currentProcess = some p := by
        simpa using hn
      simp only [step, hp, Option.some.injEq] at h
      subst h
      have hji : j ≠ i := by
        intro he
        simp [he, hp] at hj
      intro acc
      exact hji <| acc.unique j i p (by simp [setCPU, hji, hc]) (by simp [setCPU])

variable {as : List (Action ι)}

-- Throughout an execution, `currentProcess` is accurate if and only if all actions are settled.
theorem accurate_iff_settled (e : Execution step Execution.Free start as σ) :
    (∀ as' σ', as' <+: as → Execution step Execution.Free start as' σ' → σ'.Accurate) ↔
    Execution step Settled start as σ :=
  e.always_iff start_ownership step_ownership (fun o => o.accurate) not_accurate_of_not_settled

instance {n : Nat} {σ : Machine (Fin n)} {pc : Pc} : Decidable (σ.SettledAt pc) :=
  match pc with
  | .resumed _   => isFalse id
  | .assigning p =>
    inferInstanceAs <| Decidable (∀ j : Fin n, (σ.cpu j).pc.Leaving → (σ.cpu j).currentProcess ≠ some p)
  | .idle | .entering | .acquiring | .condition _ | .examining _ | .dispatching _ | .pausing _ | .releasing
  | .processEntryPoint | .user | .exiting | .freeing | .freed | .returning | .allocating | .scanning
  | .scanned _ | .initializing _ | .publishing _ | .marking _ | .marked | .halted => isTrue trivial

instance {n : Nat} {σ : Machine (Fin n)} {a : Action (Fin n)} : Decidable (Settled σ a) :=
  match a with
  | .schedule _ | .create _ | .trap .. => isTrue trivial
  | .proceed i _ => inferInstanceAs <| Decidable (σ.SettledAt (σ.cpu i).pc)

-- A processor creates a process, and switches to it.
theorem accurate_iff_settled_user : ∃ σ : Machine (Fin 2),
    Execution step Settled start
      (.create 0 :: List.replicate 7 (.proceed 0 true) ++ .schedule 0 :: List.replicate 8 (.proceed 0 true)) σ ∧
    (σ.cpu 0).pc = .user ∧ (σ.cpu 0).currentProcess = some 0 ∧ σ.Accurate := by
  have hr : (Execution.runIf step Settled (start : Machine (Fin 2))
      (Action.create 0 :: List.replicate 7 (Action.proceed 0 true) ++
        Action.schedule 0 :: List.replicate 8 (Action.proceed 0 true))).map
        (fun σ => ((σ.cpu 0).pc, (σ.cpu 0).currentProcess)) =
      some (.user, some 0) := by decide
  have ⟨σ, hr, hp⟩ := Option.map_eq_some_iff.mp hr
  simp only [Prod.mk.injEq] at hp
  have e := Execution.of_runIf hr
  exact ⟨σ, e, hp.left, hp.right, (accurate_iff_settled e.free).mpr e _ _ (List.prefix_refl _) e.free⟩

-- The processor returns to the loop after a page fault, and evaluates the condition of the loop.
theorem not_accurate : ¬∀ (as : List (Action (Fin 2))) (σ : Machine (Fin 2)),
    Execution step Execution.Free start as σ → σ.Accurate := by
  intro h
  have hr : (Execution.run step (start : Machine (Fin 2))
      (Action.create 0 :: List.replicate 7 (Action.proceed 0 true) ++
        Action.schedule 0 :: List.replicate 8 (Action.proceed 0 true) ++
        Action.trap 0 14 :: List.replicate 5 (Action.proceed 0 true))).map
        (fun σ => ((σ.cpu 0).pc, (σ.cpu 0).currentProcess)) =
      some (.condition 0, some 0) := by decide
  have ⟨σ, hr, hp⟩ := Option.map_eq_some_iff.mp hr
  simp only [Prod.mk.injEq] at hp
  have := h _ σ (Execution.of_run hr) |>.between 0 (by simp [hp.left])
  simp [hp.right] at this

end Machine
end ProcessManagement
