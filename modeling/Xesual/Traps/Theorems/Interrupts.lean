import Xesual.Traps.Interrupts

namespace Interrupts

open Contract (wp wp_replace)

variable {c c' : CPUState} {o : Op} {f : Function} {usingLock choice : Bool} {σ σ' : Machine} {a : Action}

namespace CPUState

-- Interrupts are disabled, and remain so when `pushCLI` and `popCLI` are called.
structure Quiet (c : CPUState) : Prop where
  flags                 : c.flags = false
  interruptFlag         : c.interruptFlag = false
  wereInterruptsEnabled : c.wereInterruptsEnabled = false

-- The processor neither holds a lock nor is it between `pushCLI` and `popCLI`.
structure Idle (c : CPUState) : Prop where
  flags                 : c.flags = false
  cliCount              : c.cliCount = 0
  wereInterruptsEnabled : c.wereInterruptsEnabled = false
  holds                 : c.holds = fun _ => false

theorem quiet_iff :
    c.Quiet ↔ c.flags = false ∧ c.interruptFlag = false ∧ c.wereInterruptsEnabled = false := by
  constructor
  case mp  => exact fun ⟨h₁, h₂, h₃⟩ => ⟨h₁, h₂, h₃⟩
  case mpr => exact fun ⟨h₁, h₂, h₃⟩ => ⟨h₁, h₂, h₃⟩

theorem idle_iff :
    c.Idle ↔ c.flags = false ∧ c.cliCount = 0 ∧ c.wereInterruptsEnabled = false ∧ c.holds = fun _ => false := by
  constructor
  case mp  => exact fun ⟨h₁, h₂, h₃, h₄⟩ => ⟨h₁, h₂, h₃, h₄⟩
  case mpr => exact fun ⟨h₁, h₂, h₃, h₄⟩ => ⟨h₁, h₂, h₃, h₄⟩

-- The state of an idle processor is determined by the interrupt flag.
theorem Idle.eq (h : c.Idle) (b : Bool) :
    { c with interruptFlag := b } = (⟨false, b, 0, false, fun _ => false⟩ : CPUState) := by
  rw [h.flags, h.cliCount, h.wereInterruptsEnabled, h.holds]

end CPUState

section Contracts

open CPUState (Quiet Idle)

-- The instructions after these ones are not executed.
@[simp]
def Op.Leaves : Op → Bool
  | .resume | .enterUser | .user | .enterScheduler | .halt => true
  | _ => false

@[simp]
def Op.Allowed (c : CPUState) : Op → Prop
  | .readFlags | .saveFlags | .increment | .decrement | .clear _ => c.interruptFlag = false
  | .restoreFlags => c.interruptFlag = false ∧ c.wereInterruptsEnabled = false
  | .testAndSet l => c.interruptFlag = false ∧ c.holds l = false
  | .sti | .resume => c.Idle
  | .cli | .halt => True
  | .user | .enterUser | .enterScheduler => False

-- The contract of a function that has the given effect.
@[simp]
def effect (pre : CPUState → Prop) (g : CPUState → CPUState) : Contract CPUState where
  pre       := pre
  post c c' := c' = g c

-- The contract of a function that does not return.
@[simp]
def noReturn (pre : CPUState → Prop) : Contract CPUState where
  pre      := pre
  post _ _ := False

-- As long as every call of `acquire` is guarded, the loop of `schedule` is not reached.
@[simp]
def Function.contract : Function → Contract CPUState
  | .pushCLI      => effect Quiet fun c => { c with cliCount := c.cliCount + 1 }
  | .popCLI       => effect Quiet fun c => { c with cliCount := c.cliCount - 1 }
  | .acquire l    => {
      pre c     := c.interruptFlag = false ∨ c.cliCount ≠ 0 → c.Quiet ∧ c.holds l = false
      post c c' := (c.interruptFlag = false ∨ c.cliCount ≠ 0) ∧
        c' = { c with holds := Function.update c.holds l true } }
  | .release l    => effect Quiet fun c => { c with holds := Function.update c.holds l false }
  | .logfn        => effect (fun c => c.Quiet ∧ c.holds .log = false) id
  | .lockMemory   => {
      pre c     := c.Quiet ∧ c.holds .memory = false
      post c c' := ∃ held, c' = { c with holds := Function.update c.holds .memory held } }
  | .unlockMemory => effect Quiet fun c => { c with holds := Function.update c.holds .memory false }
  | .freePages | .allocatePages | .shallowCopy | .map => effect (fun c => c.Quiet ∧ c.holds .memory = false) id
  | .allocateProcess | .checkStack | .createFirstProcess =>
    effect (fun c => c.Quiet ∧ c.holds = fun _ => false) id
  | .takeSlot     =>
    effect (fun c => c.Quiet ∧ c.holds = Function.update (fun _ => false) .processTable true)
      fun c => { c with holds := fun _ => false }
  | .sharedMain | .checkInterruptStack =>
    noReturn fun c => c.Quiet ∧ c.cliCount = 1 ∧ c.holds = fun _ => false
  | .scan | .schedule => noReturn fun c => c.Quiet ∧ c.Idle
  | .panic        => noReturn fun c => c.Quiet ∧ c.holds = fun _ => false
  | .trapHandler kernelCode _ => effect (fun c => kernelCode ∧ c.Quiet ∧ c.holds = fun _ => false) id
  | .loop | .pause | .processEntryPoint | .freeProcess | .exitCurrentProcess => noReturn fun _ => False

@[simp]
def Instruction.contract : Instruction → Contract CPUState
  | .op o   => { pre := o.Allowed, post := fun c c' => o.Leaves = false ∧ c' = c.execute o }
  | .call f => f.contract

end Contracts

section Body

open CPUState (quiet_iff idle_iff)

attribute [local simp] Function.body CPUState.execute quiet_iff idle_iff

-- The code of every function meets its contract.
theorem Function.wp_body (hg : f.Guarded usingLock c) (h : f.contract.pre c) :
    wp Instruction.contract (f.body usingLock choice) (f.contract.post c) c := by
  have ⟨flags, interruptFlag, cliCount, wereInterruptsEnabled, holds⟩ := c
  cases f <;> simp at h
  case acquire =>
    have h := h hg
    simp [h]
  case unlockMemory =>
    cases usingLock
    case true  => simp [h]
    case false =>
      have hm : holds .memory = false := by simpa [Function.Guarded] using hg
      simp [h, hm]
  -- After `sti` the call of `acquire` is not guarded, so nothing is required of what follows.
  case schedule => simp [h]
  case trapHandler =>
    simp only [body, h.left]
    split <;> simp [h]
  case lockMemory => cases usingLock <;> simp [h]
  case map | takeSlot | checkStack | checkInterruptStack | scan => cases choice <;> simp [h]
  all_goals simp [h]

theorem Function.wp_call {next : List Instruction} {Q : CPUState → Prop} (hg : f.Guarded usingLock c)
    (h : wp Instruction.contract (.call f :: next) Q c) :
    wp Instruction.contract (f.body usingLock choice ++ next) Q c :=
  wp_replace (i := Instruction.call f) (wp_body hg) h

theorem wp_handler {word number : Nat} : wp Instruction.contract (handler true word number) (fun _ => False)
    ⟨false, false, 0, false, fun _ => false⟩ := by
  unfold handler
  split <;> simp

-- The interrupt flag is set by `sti` only.
theorem Op.idle_execute (h : o.Allowed c) (hl : o.Leaves = false) (hi : (c.execute o).interruptFlag) :
    (c.execute o).Idle := by
  cases o <;> simp_all

end Body

namespace Machine

-- The code that is executed and the code that has been interrupted can be continued, and interrupts are enabled
-- only if the processor is idle.
structure Invariant (σ : Machine) : Prop where
  code        : wp Instruction.contract σ.code (fun _ => False) σ.cpu
  interrupted : ∀ f ∈ σ.interrupted, f.flags = false ∧
    wp Instruction.contract f.code (fun _ => False) ⟨false, f.interruptFlag, 0, false, fun _ => false⟩
  idle        : σ.cpu.interruptFlag → σ.cpu.Idle

theorem Invariant.safe (inv : σ.Invariant) : σ.Safe where
  closed l hl := by
    by_contra h
    simp [(inv.idle <| by simpa using h).holds] at hl
  free l next h := by
    have hw := h ▸ inv.code
    exact hw.left.right

theorem start_invariant {bootstrap : Bool} {held : Lock → Bool} : (start bootstrap held usingLock).Invariant where
  code        := by cases bootstrap <;> simp [start, CPUState.quiet_iff]
  interrupted := by simp [start]
  idle        := by simp [start]

namespace Invariant

theorem not_inUserMode (inv : σ.Invariant) : σ.inUserMode = false := by
  unfold inUserMode
  split
  case h_1 h => exact (h ▸ inv.code).left.elim
  case h_2   => rfl

theorem enter {code : List Instruction} (inv : σ.Invariant) (hi : σ.cpu.interruptFlag)
    (h : wp Instruction.contract code (fun _ => False) ⟨false, false, 0, false, fun _ => false⟩) :
    (σ.enter false code).Invariant where
  code := by
    change wp _ code _ { σ.cpu with interruptFlag := false }
    rwa [(inv.idle hi).eq]
  interrupted f hf := by
    have hw : wp _ σ.code _ { σ.cpu with interruptFlag := σ.cpu.interruptFlag } := inv.code
    rw [(inv.idle hi).eq] at hw
    cases List.mem_cons.mp hf
    case inl hf => exact hf ▸ ⟨(inv.idle hi).flags, hw⟩
    case inr hf => exact inv.interrupted f hf
  idle := by simp [Machine.enter]

theorem others {held : Lock → Bool} (inv : σ.Invariant) : { σ with held, usingLock }.Invariant :=
  ⟨inv.code, inv.interrupted, inv.idle⟩

-- What the other processors see of the locks does not matter.
theorem advance {next : List Instruction} {held : Lock → Bool} (inv : σ.Invariant) (hc : σ.code = .op o :: next)
    (hl : o.Leaves = false) :
    Invariant { σ with cpu := σ.cpu.execute o, code := next, held, usingLock } where
  code        := (hc ▸ inv.code).right _ ⟨hl, rfl⟩
  interrupted := inv.interrupted
  idle        := Op.idle_execute (hc ▸ inv.code).left hl

theorem execute {next : List Instruction} (inv : σ.Invariant) (hc : σ.code = .op o :: next)
    (hs : σ.execute next o = some σ') : σ'.Invariant := by
  have ha : o.Allowed σ.cpu := (hc ▸ inv.code).left
  cases o <;> simp only [Machine.execute, Option.some.injEq, reduceCtorEq] at hs
  case enterUser | enterScheduler => exact ha.elim
  case testAndSet l =>
    split at hs <;> cases hs
    case isTrue  => exact inv
    case isFalse => exact inv.advance hc rfl
  case resume =>
    split at hs <;> cases hs
    case h_1 f _ hf =>
      have ⟨h₁, h₂⟩ := inv.interrupted f <| hf ▸ List.mem_cons_self
      exact {
        code        := by simpa [h₁, ha.cliCount, ha.wereInterruptsEnabled, ha.holds] using h₂
        interrupted := fun g hg => inv.interrupted g <| hf ▸ List.mem_cons_of_mem _ hg
        idle        := fun _ => ⟨h₁, ha.cliCount, ha.wereInterruptsEnabled, ha.holds⟩ }
  all_goals exact hs ▸ inv.advance hc rfl

theorem step (inv : σ.Invariant) (hg : σ.Guarded a) (hs : σ.step a = some σ') : σ'.Invariant := by
  cases a <;> simp only [Machine.step] at hs
  case proceed =>
    split at hs
    case h_1        => cases hs
    case h_2 hc     => exact inv.execute hc hs
    case h_3 f _ hc =>
      cases hs
      have hg : f.Guarded σ.usingLock σ.cpu := by simpa [Guarded, hc] using hg
      exact ⟨Function.wp_call hg (hc ▸ inv.code), inv.interrupted, inv.idle⟩
  case interrupt =>
    have ⟨⟨hi, _⟩, hs⟩ := Option.ite_none_right_eq_some.mp hs
    cases hs
    simp only [inv.not_inUserMode]
    exact inv.enter hi wp_handler
  case exception => simp [inv.not_inUserMode] at hs
  case syscall   => simp [inv.not_inUserMode] at hs
  case others    => exact Option.some.inj hs ▸ inv.others

end Invariant

-- In every run whose calls are guarded, the interrupt flag is clear whenever a lock is held, and the processor does
-- not wait for itself.
theorem safe_of_guarded {bootstrap usingLock : Bool} {held : Lock → Bool} {as : List Action}
    (e : Execution step Guarded (start bootstrap held usingLock) as σ) : σ.Safe :=
  Invariant.safe <| e.invariant start_invariant Invariant.step

-- A call of `acquire` that is not guarded returns with the lock held and interrupts enabled, if the lock is free.
theorem enabled_of_acquire {l : Lock} {next : List Instruction} (hc : σ.code = .call (.acquire l) :: next)
    (hg : ¬Function.Guarded σ.usingLock σ.cpu (.acquire l)) (hf : σ.held l = false) :
    ∃ as σ', Execution step Execution.Free σ as σ' ∧ σ'.code = next ∧ σ'.cpu.holds l ∧ σ'.cpu.interruptFlag := by
  have ⟨⟨flags, interruptFlag, cliCount, enabled, holds⟩, code, interrupted, held, usingLock⟩ := σ
  simp only [Function.Guarded, not_or, Bool.not_eq_false, not_not] at hg
  simp only at hc hf
  have ⟨hi, hn⟩ := hg
  subst hc hi hn
  -- `pushCLI` saves the flag, the loop ends at once, and `popCLI` restores the flag.
  let next' : List Instruction := .call .popCLI :: next
  have h₁ : Execution.run step
      ⟨⟨flags, true, 0, enabled, holds⟩, .call (.acquire l) :: next, interrupted, held, usingLock⟩
      (List.replicate 6 (.proceed true)) =
      some ⟨⟨true, false, 1, true, holds⟩, .op (.testAndSet l) :: next', interrupted, held, usingLock⟩ := rfl
  have h₂ : step ⟨⟨true, false, 1, true, holds⟩, .op (.testAndSet l) :: next', interrupted, held, usingLock⟩
      (.proceed true) =
      some ⟨⟨true, false, 1, true, Function.update holds l true⟩, next', interrupted, Function.update held l true,
        usingLock⟩ := by simp [Machine.step, Machine.execute, CPUState.execute, hf]
  have h₃ : Execution.run step
      ⟨⟨true, false, 1, true, Function.update holds l true⟩, next', interrupted, Function.update held l true,
        usingLock⟩
      (List.replicate 3 (.proceed true)) =
      some ⟨⟨true, true, 0, true, Function.update holds l true⟩, next, interrupted, Function.update held l true,
        usingLock⟩ := rfl
  have e := (Execution.of_run h₁).snoc trivial h₂ |>.trans (Execution.of_run h₃)
  exact ⟨_, _, e, rfl, by simp, rfl⟩

instance : Decidable (f.Guarded usingLock c) :=
  match f with
  | .acquire _    => inferInstanceAs <| Decidable (c.interruptFlag = false ∨ c.cliCount ≠ 0)
  | .unlockMemory => inferInstanceAs <| Decidable (usingLock ∨ c.holds .memory = false)
  | .pushCLI | .popCLI | .release _ | .logfn | .lockMemory | .freePages | .allocatePages | .shallowCopy | .map
  | .allocateProcess | .takeSlot | .checkStack | .createFirstProcess | .sharedMain | .checkInterruptStack | .scan
  | .schedule | .loop | .pause | .processEntryPoint | .freeProcess | .exitCurrentProcess | .panic
  | .trapHandler .. => isTrue trivial

instance : Decidable (σ.Guarded a) :=
  match a with
  | .proceed _ =>
    match h : σ.code with
    | .call f :: _    => decidable_of_iff (f.Guarded σ.usingLock σ.cpu) (by simp [Guarded, h])
    | [] | .op _ :: _ => isTrue (by simp [Guarded, h])
  | .interrupt .. | .exception _ | .syscall | .others .. => isTrue trivial

-- The processor boots, and is interrupted when it has enabled interrupts in `schedule`.
theorem safe_of_guarded_interrupt : ∃ σ : Machine,
    Execution step Guarded (start false (fun _ => false) false)
      (List.replicate 29 (.proceed true) ++ List.replicate 24 (.proceed false) ++
        .interrupt 33 0 :: List.replicate 9 (.proceed true)) σ ∧
    σ.cpu.holds .log ∧ σ.Safe := by
  have hr : (Execution.runIf step Guarded (start false (fun _ => false) false)
      (List.replicate 29 (Action.proceed true) ++ List.replicate 24 (Action.proceed false) ++
        Action.interrupt 33 0 :: List.replicate 9 (Action.proceed true))).map (·.cpu.holds .log) = some true := by decide
  have ⟨σ, hr, hl⟩ := Option.map_eq_some_iff.mp hr
  have e := Execution.of_runIf hr
  exact ⟨σ, e, hl, safe_of_guarded e⟩

-- `schedule` acquires the lock of the process table with interrupts enabled, and then the one of the log. If the
-- handler of an interrupt writes to the log, the processor waits forever.
theorem not_safe :
    (¬∀ as σ, Execution step Execution.Free (start false (fun _ => false) false) as σ →
      ∀ l, σ.cpu.holds l → σ.cpu.interruptFlag = false) ∧
    ¬∀ as σ, Execution step Execution.Free (start false (fun _ => false) false) as σ →
      ∀ l next, σ.code = .op (.testAndSet l) :: next → σ.cpu.holds l = false := by
  constructor
  case left =>
    intro h
    have hr : (Execution.run step (start false (fun _ => false) false)
        (List.replicate 29 (Action.proceed true) ++ List.replicate 34 (Action.proceed false))).map
          (fun σ => (σ.cpu.holds .processTable, σ.cpu.interruptFlag)) = some (true, true) := by decide
    have ⟨σ, hr, hp⟩ := Option.map_eq_some_iff.mp hr
    simp only [Prod.mk.injEq] at hp
    simpa [hp.right] using h _ σ (Execution.of_run hr) .processTable hp.left
  case right =>
    intro h
    have hr : (Execution.run step (start false (fun _ => false) false)
        (List.replicate 29 (Action.proceed true) ++ List.replicate 34 (Action.proceed false) ++
          List.replicate 12 (Action.proceed true) ++ Action.interrupt 33 0 :: List.replicate 8 (Action.proceed true))).map
          (fun σ => (σ.cpu.holds .log, σ.code.head?)) = some (true, some (.op (.testAndSet .log))) := by decide
    have ⟨σ, hr, hp⟩ := Option.map_eq_some_iff.mp hr
    simp only [Prod.mk.injEq, List.head?_eq_some_iff] at hp
    have ⟨hl, next, hc⟩ := hp
    simpa [hl] using h _ σ (Execution.of_run hr) .log next hc

end Machine
end Interrupts
