import Xesual.Process.Switch
import Xesual.Traps.Theorems.Frames

namespace ProcessManagement.Switch

open Assembly (Instruction State StackPointer)
open Memory
open PhysicalMemoryManagement (PageSize)
open Traps (InterruptRegisters Register Registers)

section Pause

variable {s : State Register} {r : Register} {yieldFrom yieldTo returnAddress k : BitVec 64}

theorem sp_not_mem_kernelContext : StackPointer.sp ∉ KernelContext := by decide

theorem nodup_kernelContext : KernelContext.Nodup := by decide

-- The state of `Pause` when all registers have been pushed.
def suspended (yieldFrom yieldTo returnAddress : BitVec 64) (s : State Register) : State Register :=
  ((s.set .rdi yieldFrom).set .rsi yieldTo).pushAll (KernelContext.reverse.map (continuation s returnAddress))

theorem suspended_rsp : (suspended yieldFrom yieldTo returnAddress s).registers .rsp = s.registers .rsp - 56 :=
  Assembly.pushAll_sp

theorem suspended_rdi : (suspended yieldFrom yieldTo returnAddress s).registers .rdi = yieldFrom :=
  Assembly.pushAll_registers (by decide)

theorem suspended_rsi : (suspended yieldFrom yieldTo returnAddress s).registers .rsi = yieldTo :=
  Assembly.pushAll_registers (by decide)

theorem run_pauseCode_push : (callPause yieldFrom yieldTo returnAddress s).run
    ([Register.r15, .r14, .r13, .r12, .rbp, .rbx].map fun r => Instruction.push (.register r)) =
      suspended yieldFrom yieldTo returnAddress s := by
  have hr : [Register.r15, .r14, .r13, .r12, .rbp, .rbx].map
      (callPause yieldFrom yieldTo returnAddress s).registers =
      [Register.r15, .r14, .r13, .r12, .rbp, .rbx].map s.registers := rfl
  have hc : KernelContext.reverse.map (continuation s returnAddress) =
      returnAddress :: [Register.r15, .r14, .r13, .r12, .rbp, .rbx].map s.registers := rfl
  rw [Assembly.run_push (by decide), hr, suspended, hc, Assembly.pushAll_cons, callPause]

-- The registers are popped from the `KernelContext` that is switched to, and finally the return address.
theorem pause_eq : pause yieldFrom yieldTo returnAddress s =
    (State.set ⟨(suspended yieldFrom yieldTo returnAddress s).registers,
      (suspended yieldFrom yieldTo returnAddress s).memory.store yieldFrom (s.registers .rsp - 56)⟩
        .rsp yieldTo).popAll KernelContext := by
  have hs : (suspended yieldFrom yieldTo returnAddress s).registers .rsp = _ := suspended_rsp
  have hd : (suspended yieldFrom yieldTo returnAddress s).registers .rdi = _ := suspended_rdi
  have hi : (suspended yieldFrom yieldTo returnAddress s).registers .rsi = _ := suspended_rsi
  have hk : KernelContext = [.rbx, .rbp, .r12, .r13, .r14, .r15] ++ [.rip] := rfl
  have hf : yieldFrom + 0 = yieldFrom := BitVec.add_zero ..
  rw [pause, pauseCode, Assembly.run_append, Assembly.run_append, Assembly.run_append, run_pauseCode_push,
    Assembly.run_pop, hk, Assembly.popAll_concat]
  generalize suspended yieldFrom yieldTo returnAddress s = t at hs hd hi
  simp only [Assembly.run_cons, Assembly.run_nil, State.execute, State.value, hs, hd, hi, hf]

theorem pause_memory : (pause yieldFrom yieldTo returnAddress s).memory =
    (suspended yieldFrom yieldTo returnAddress s).memory.store yieldFrom (s.registers .rsp - 56) := by
  rw [pause_eq, Assembly.popAll_memory, Assembly.set_memory]

theorem pause_rsp : (pause yieldFrom yieldTo returnAddress s).registers .rsp = yieldTo + 56 := by
  rw [pause_eq]
  refine (Assembly.popAll_sp sp_not_mem_kernelContext).trans ?_
  rw [StackPointer.sp, Traps.instStackPointerRegister, Assembly.set_self]
  rfl

theorem pause_registers (h : r ∈ KernelContext) : (pause yieldFrom yieldTo returnAddress s).registers r =
    (pause yieldFrom yieldTo returnAddress s).memory.field KernelContext yieldTo r := by
  rw [pause_memory, pause_eq, Assembly.popAll_of_mem h sp_not_mem_kernelContext nodup_kernelContext]
  rw [StackPointer.sp, Traps.instStackPointerRegister, Assembly.set_self, Assembly.set_memory]

-- Only the variable of the context and the words below its stack pointer are written to.
theorem pause_memory_of_not_mem (hs : k ∉ region (s.registers .rsp - 56) 56) (hk : k ∉ region yieldFrom 8) :
    (pause yieldFrom yieldTo returnAddress s).memory k = s.memory k := by
  rw [pause_memory, store_of_not_mem hk]
  exact Assembly.pushAll_memory (by rw [List.length_map]; decide) hs

theorem load_pause : (pause yieldFrom yieldTo returnAddress s).memory.load yieldFrom = s.registers .rsp - 56 := by
  rw [pause_memory, load_store]

-- The `KernelContext` that is left behind holds the registers of the context.
theorem field_pause (h : r ∈ KernelContext)
    (hd : Disjoint (region yieldFrom 8) (region (s.registers .rsp - 56) 56)) :
    (pause yieldFrom yieldTo returnAddress s).memory.field KernelContext (s.registers .rsp - 56) r =
      continuation s returnAddress r := by
  have hf := Assembly.pushAll_field (s := (s.set .rdi yieldFrom).set .rsi yieldTo) (continuation s returnAddress) h
    (by decide)
  rw [← suspended] at hf
  have hs : (suspended yieldFrom yieldTo returnAddress s).registers StackPointer.sp = _ := suspended_rsp
  rw [hs] at hf
  rw [pause_memory, ← hf]
  exact field_congr h (by decide) fun k hk => store_of_not_mem fun hk' => Set.disjoint_left.mp hd hk' hk

end Pause

section Contexts

variable {ι : Type} [DecidableEq ι] {L : Layout ι} {σ σ' σ₁ σ₂ σ₃ : Machine ι} {i i₀ j : ι} {c : Registers}
  {cpu : State Register} {m m' : Memory} {returnAddress : BitVec 64} {a : Action ι} {as as' : List (Action ι)}

namespace Machine

-- What has to be found in memory for a context that is to be resumed with the registers `c`.
structure Suspended (L : Layout ι) (m : Memory) (i : ι) (c : Registers) : Prop where
  stack  : region (m.load (L.task i)) 56 ⊆ L.stack i
  rsp    : m.load (L.task i) + 56 = c .rsp
  fields : ∀ r ∈ KernelContext, m.field KernelContext (m.load (L.task i)) r = c r

omit [DecidableEq ι] in
theorem Suspended.congr (h : Set.EqOn m' m (L.stack i ∪ region (L.task i) 8)) (hs : Suspended L m i c) :
    Suspended L m' i c := by
  have ht : m'.load (L.task i) = m.load (L.task i) := load_congr fun k hk => h (.inr hk)
  constructor
  case stack => rw [ht]; exact hs.stack
  case rsp   => rw [ht]; exact hs.rsp
  case fields =>
    intro r hr
    rw [ht, ← hs.fields r hr]
    exact field_congr hr (by decide) fun k hk => h (.inl <| hs.stack hk)

structure Invariant (L : Layout ι) (σ : Machine ι) : Prop where
  running   : σ.saved σ.running = none
  suspended : ∀ {i c}, σ.saved i = some c → Suspended L σ.cpu.memory i c

omit [DecidableEq ι] in
theorem invariant_start : Invariant L (start cpu i) where
  running     := rfl
  suspended h := nomatch h

-- The stack of any other context and its variable are not affected by a switch.
omit [DecidableEq ι] in
theorem eqOn_pause {yieldTo : BitVec 64} (h : region (σ.cpu.registers .rsp - 56) 56 ⊆ L.stack σ.running)
    (hi : i ≠ σ.running) : Set.EqOn (pause (L.task σ.running) yieldTo returnAddress σ.cpu).memory σ.cpu.memory
      (L.stack i ∪ region (L.task i) 8) := by
  refine fun k hk => pause_memory_of_not_mem (fun hs => ?_) fun ht => ?_
  all_goals cases hk
  case _ hk => exact Set.disjoint_left.mp (L.stack_disjoint hi) hk (h hs)
  case _ hk => exact Set.disjoint_left.mp L.task_stack hk (h hs)
  case _ hk => exact Set.disjoint_left.mp L.task_stack ht hk
  case _ hk => exact Set.disjoint_left.mp (L.task_disjoint hi) hk ht

-- The context that calls `Pause` can be resumed.
omit [DecidableEq ι] in
theorem suspended_pause {yieldTo : BitVec 64} (h : region (σ.cpu.registers .rsp - 56) 56 ⊆ L.stack σ.running) :
    Suspended L (pause (L.task σ.running) yieldTo returnAddress σ.cpu).memory σ.running
      (continuation σ.cpu returnAddress) := by
  have hd : Disjoint (region (L.task σ.running) 8) (region (σ.cpu.registers .rsp - 56) 56) :=
    L.task_stack.mono_right h
  constructor
  case stack  => rwa [load_pause]
  case rsp    => rw [load_pause, BitVec.sub_add_cancel]; rfl
  case fields =>
    intro r hr
    rw [load_pause]
    exact field_pause hr hd

omit [DecidableEq ι] in
theorem suspended_create (h : region (σ.task L i) 56 ⊆ L.stack i) :
    Suspended L σ.cpu.memory i (Function.update (σ.field L i) .rsp (σ.task L i + 56)) := by
  constructor
  case stack => exact h
  case rsp   => rw [Function.update_self, task]
  case fields =>
    intro r hr
    have hn : r ≠ .rsp := ne_of_mem_of_not_mem hr sp_not_mem_kernelContext
    rw [Function.update_of_ne hn, field, task]

theorem invariant_step (hi : Invariant L σ) (ha : Allowed L σ a) (hs : step L σ a = some σ') : Invariant L σ' := by
  cases a <;> cases hs
  case work s =>
    refine ⟨hi.running, fun hc => (hi.suspended hc).congr <| ha _ ?_⟩
    exact Option.ne_none_iff_exists'.mpr ⟨_, hc⟩
  case create i =>
    have ⟨hr, hn, ht⟩ := ha
    refine ⟨(Function.update_of_ne hr.symm ..).trans hi.running, fun {i' c} hc => ?_⟩
    change Function.update σ.saved i _ i' = some c at hc
    by_cases h : i' = i
    case pos =>
      subst h
      rw [Function.update_self, Option.some.injEq] at hc
      exact hc ▸ suspended_create ht
    case neg => exact hi.suspended <| (Function.update_of_ne h ..).symm.trans hc
  case pause j returnAddress =>
    have ⟨_, hr⟩ := ha
    refine ⟨Function.update_self .., fun {i c} hc => ?_⟩
    have hj : i ≠ j := by
      rintro rfl
      exact nomatch (Function.update_self ..).symm.trans hc
    have hc := (Function.update_of_ne hj ..).symm.trans hc
    by_cases h : i = σ.running
    case pos =>
      subst h
      rw [Function.update_self, Option.some.injEq] at hc
      exact hc ▸ suspended_pause hr
    case neg =>
      exact (hi.suspended <| (Function.update_of_ne h ..).symm.trans hc).congr <| eqOn_pause hr h

-- A context remains suspended as long as it is not switched to.
theorem saved_step (hi : Invariant L σ) (ha : Allowed L σ a) (hs : step L σ a = some σ') (hc : σ.saved i = some c)
    (hn : ∀ returnAddress, .pause i returnAddress ≠ a) : σ'.saved i = some c := by
  cases a <;> cases hs
  case work => exact hc
  case create j =>
    have hj : i ≠ j := by
      rintro rfl
      exact nomatch hc.symm.trans ha.right.left
    exact (Function.update_of_ne hj ..).trans hc
  case pause j returnAddress =>
    have hj : i ≠ j := by
      rintro rfl
      exact hn _ rfl
    have hr : i ≠ σ.running := by
      rintro rfl
      exact nomatch hc.symm.trans hi.running
    exact (Function.update_of_ne hj ..).trans <| (Function.update_of_ne hr ..).trans hc

theorem saved_execution (hi : Invariant L σ) (e : Execution (step L) (Allowed L) σ as σ') (hc : σ.saved i = some c)
    (hn : ∀ returnAddress, .pause i returnAddress ∉ as) : Invariant L σ' ∧ σ'.saved i = some c := by
  induction e
  case refl => exact ⟨hi, hc⟩
  case snoc ha hs ih =>
    have ⟨hi, hc⟩ := ih fun r h => hn r (List.mem_append_left _ h)
    refine ⟨invariant_step hi ha hs, saved_step hi ha hs hc fun r h => ?_⟩
    exact hn r <| List.mem_append_right _ <| List.mem_singleton.mpr h

-- A context that is switched to is resumed with the registers that it is suspended with.
theorem resumed (hi : Invariant L σ) (hc : σ.saved i = some c) (ha : Allowed L σ (.pause i returnAddress))
    (hs : step L σ (.pause i returnAddress) = some σ') : ∀ r ∈ preservedRegisters, σ'.cpu.registers r = c r := by
  have hr : i ≠ σ.running := by
    rintro rfl
    exact nomatch hc.symm.trans hi.running
  have hm : Set.EqOn (pause (L.task σ.running) (σ.task L i) returnAddress σ.cpu).memory _ _ := eqOn_pause ha.right hr
  have hu := hi.suspended hc
  have hf := (hu.congr hm).fields
  rw [load_congr fun k hk => hm (.inr hk)] at hf
  cases hs
  intro r hr
  by_cases h : r = .rsp
  case pos => rw [h, ← hu.rsp]; exact pause_rsp
  case neg =>
    have hk : r ∈ KernelContext := by
      revert hr h
      cases r <;> decide
    exact (pause_registers hk).trans (hf r hk)

-- After a context has called `Pause`, and as long as it has not been switched to, its `KernelContext` holds its
-- registers. When it is switched to, it is resumed with them.
theorem resumed_after_pause (e : Execution (step L) (Allowed L) (start cpu i₀) as σ)
    (ha : Allowed L σ (.pause j returnAddress)) (hs : step L σ (.pause j returnAddress) = some σ₁)
    (e' : Execution (step L) (Allowed L) σ₁ as' σ₂) (hn : ∀ returnAddress', .pause σ.running returnAddress' ∉ as') :
    (∀ r ∈ KernelContext, σ₂.field L σ.running r = continuation σ.cpu returnAddress r) ∧
    ∀ returnAddress' σ₃, Allowed L σ₂ (.pause σ.running returnAddress') →
      step L σ₂ (.pause σ.running returnAddress') = some σ₃ →
      σ₃.running = σ.running ∧
        ∀ r ∈ preservedRegisters, σ₃.cpu.registers r = continuation σ.cpu returnAddress r := by
  have hi := e.invariant invariant_start invariant_step
  have hc : σ₁.saved σ.running = some (continuation σ.cpu returnAddress) := by
    have hj : σ.running ≠ j := by
      rintro rfl
      exact ha.left hi.running
    cases hs
    exact (Function.update_of_ne hj ..).trans (Function.update_self ..)
  have ⟨hi, hc⟩ := saved_execution (invariant_step hi ha hs) e' hc hn
  refine ⟨(hi.suspended hc).fields, fun _ _ ha hs => ⟨?_, resumed hi hc ha hs⟩⟩
  cases hs
  rfl

-- Two contexts, each with a page as its stack.
def twoContexts : Layout Bool where
  stack i        := region (bif i then 0x2000 else 0x1000) 0x1000
  task i         := bif i then 0x108 else 0x100
  stack_disjoint {i j} h := by
    cases i <;> cases j <;> first | exact absurd rfl h | exact disjoint_region (by decide) (by decide)
  task_disjoint {i j} h := by
    cases i <;> cases j <;> first | exact absurd rfl h | exact disjoint_region (by decide) (by decide)
  task_stack {i j} := by
    cases i <;> cases j <;> exact disjoint_region (by decide) (by decide)

-- The state of the first context when there is a `KernelContext` for the second one at 0x2800. All registers have
-- different values.
def firstContext : State Register where
  registers r := if r = .rsp then 0x1800 else 0x10 * .ofNat 64 (Traps.InterruptRegisters.idxOf (.register r))
  memory      := Memory.store (fun _ => 0) 0x108 0x2800

def prepared : Machine Bool where
  cpu     := firstContext
  running := false
  saved   := Function.update (fun _ => none) true <| some <|
    Function.update ((start firstContext false).field twoContexts true) .rsp
      ((start firstContext false).task twoContexts true + 56)

-- The second context after it has been switched to, has used all registers, and has written to its stack.
def secondContext : State Register where
  registers _ := 0x2900
  memory      := (pause 0x100 0x2800 7 firstContext).memory.store 0x28f8 5

-- The two contexts are switched forth and back.
theorem resumed_after_pause_twoContexts : ∃ σ : Machine Bool,
    Execution (step twoContexts) (Allowed twoContexts) (start firstContext false)
      [.create true, .pause true 7, .work secondContext, .pause false 9] σ ∧
    σ.running = false ∧ ∀ r ∈ preservedRegisters, σ.cpu.registers r = continuation firstContext 7 r := by
  have ht : (start firstContext false).task twoContexts true = 0x2800 := load_store
  have hc : Allowed twoContexts (start firstContext false) (.create true) := by
    refine ⟨by decide, rfl, ?_⟩
    rw [ht]
    exact region_subset (by decide)
  have e : Execution (step twoContexts) (Allowed twoContexts) (start firstContext false) [.create true] prepared :=
    Execution.refl.snoc hc rfl
  have ha : Allowed twoContexts prepared (.pause true 7) :=
    ⟨by simp [prepared], region_subset (by decide)⟩
  obtain ⟨σ₁, hs, hr₁, hm₁, h₁⟩ : ∃ σ₁, step twoContexts prepared (.pause true 7) = some σ₁ ∧ σ₁.running = true ∧
      σ₁.cpu.memory = (pause 0x100 (prepared.task twoContexts true) 7 firstContext).memory ∧
      σ₁.saved = Function.update (Function.update prepared.saved false (some (continuation firstContext 7))) true none :=
    ⟨_, rfl, rfl, rfl, rfl⟩
  have hw : Allowed twoContexts σ₁ (.work secondContext) := by
    intro i hi
    have hi : i = false := by
      cases i
      case false => rfl
      case true  => simp [h₁] at hi
    have hd : Disjoint (twoContexts.stack false ∪ region (twoContexts.task false) 8) (region 0x28f8 8) :=
      Set.disjoint_union_left.mpr ⟨disjoint_region (by decide) (by decide), disjoint_region (by decide) (by decide)⟩
    rw [hm₁, show prepared.task twoContexts true = 0x2800 from ht, hi]
    exact fun k hk => store_of_not_mem <| Set.disjoint_left.mp hd hk
  have e' : Execution (step twoContexts) (Allowed twoContexts) σ₁ [.work secondContext] _ := Execution.refl.snoc hw rfl
  have hsub : region (0x2900 - 56) 56 ⊆ twoContexts.stack true := region_subset (by decide)
  have ha' : Allowed twoContexts { σ₁ with cpu := secondContext } (.pause false 9) :=
    ⟨by simp [h₁], by rw [hr₁]; exact hsub⟩
  have h := (resumed_after_pause e ha hs e' (by simp)).right 9 _ ha' rfl
  exact ⟨_, ((e.snoc ha hs).trans e').snoc ha' rfl, h⟩

end Machine
end Contexts

section FirstDispatch

variable {trapRet processEntryPoint kernelStack schedulerTask returnAddress k : BitVec 64} {m : Memory}
  {s s' : State Register} {r : Register}

section BuildStack

theorem buildStack_eq : buildStack trapRet processEntryPoint kernelStack m = {
    memory     := ((m.store (kernelStack + 3912) trapRet).fill (kernelStack + 3856) 0 56).store
      (kernelStack + 3904) processEntryPoint
    trapFrame  := kernelStack + 3920
    kernelTask := kernelStack + 3856 } := by
  have hp : BitVec.ofNat 64 PageSize = 4096 := by decide
  have hi : BitVec.ofNat 64 (8 * InterruptRegisters.length) = 176 := by decide
  have hk : 8 * KernelContext.length = 56 := by decide
  have hr : (8 : BitVec 64) * .ofNat 64 (KernelContext.idxOf .rip) = 48 := by decide
  have ht : kernelStack + 4096 - 176 = kernelStack + 3920 := by bv_omega
  have h₁ : kernelStack + 3920 - 8 = kernelStack + 3912 := by bv_omega
  have h₂ : kernelStack + 3912 - 56#64 = kernelStack + 3856 := by bv_omega
  have h₃ : kernelStack + 3856 + 48 = kernelStack + 3904 := by bv_omega
  simp only [buildStack, hp, hi, hk, hr, ht, h₁, h₂, h₃]

theorem load_buildStack_trapRet :
    (buildStack trapRet processEntryPoint kernelStack m).memory.load (kernelStack + 3912) = trapRet := by
  have h₁ : Disjoint (region (kernelStack + 3904) 8) (region (kernelStack + 3912) 8) :=
    disjoint_region (by bv_omega) (by bv_omega)
  have h₂ : Disjoint (region (kernelStack + 3856) 56) (region (kernelStack + 3912) 8) :=
    disjoint_region (by bv_omega) (by bv_omega)
  rw [buildStack_eq, load_store_of_disjoint h₁, load_fill_of_disjoint h₂, load_store]

theorem field_buildStack_rip : (buildStack trapRet processEntryPoint kernelStack m).memory.field KernelContext
    (kernelStack + 3856) .rip = processEntryPoint := by
  have hr : (8 : BitVec 64) * .ofNat 64 (KernelContext.idxOf .rip) = 48 := by decide
  have ha : kernelStack + 3856 + 48 = kernelStack + 3904 := by bv_omega
  rw [field, hr, ha, buildStack_eq, load_store]

theorem field_buildStack_of_ne (hr : r ∈ KernelContext) (hn : r ≠ .rip) :
    (buildStack trapRet processEntryPoint kernelStack m).memory.field KernelContext (kernelStack + 3856) r = 0 := by
  have hi : KernelContext.idxOf r < 6 := by
    revert hr hn
    cases r <;> decide
  have hd : Disjoint (region (kernelStack + 3904) 8)
      (region (kernelStack + 3856 + 8 * .ofNat 64 (KernelContext.idxOf r)) 8) :=
    disjoint_region (by bv_omega) (by bv_omega)
  rw [field, buildStack_eq, load_store_of_disjoint hd]
  exact load_fill_zero (by bv_omega)

end BuildStack

section Reads

variable {yieldFrom yieldTo : BitVec 64}

-- `Pause` reads the words of the `KernelContext` that is switched to.
theorem mem_reads_resume {t : State Register} (h : k ∈ t.reads
      ([Instruction.store .rsp .rdi 0, .load (.register .rsi) .rsp] ++ KernelContext.map Instruction.pop)) :
    ∃ i < KernelContext.length, k = t.registers .rsi + 8 * .ofNat 64 i := by
  have ht : (t.run [.store .rsp .rdi 0, .load (.register .rsi) .rsp]).registers StackPointer.sp =
      t.registers .rsi := Assembly.set_self
  rw [Assembly.reads_append] at h
  rw [← ht]
  exact Assembly.mem_reads_pop sp_not_mem_kernelContext h

theorem mem_reads_pauseCode (h : k ∈ (callPause yieldFrom yieldTo returnAddress s).reads pauseCode) :
    ∃ i < KernelContext.length, k = yieldTo + 8 * .ofNat 64 i := by
  have hc : pauseCode = [Register.r15, .r14, .r13, .r12, .rbp, .rbx].map (fun r => Instruction.push (.register r)) ++
      ([Instruction.store .rsp .rdi 0, .load (.register .rsi) .rsp] ++ KernelContext.map Instruction.pop) := rfl
  rw [hc, Assembly.reads_append, Assembly.reads_push, run_pauseCode_push, List.nil_append] at h
  have hk := mem_reads_resume h
  rwa [suspended_rsi] at hk

-- `TrapRet` reads the words from which the general registers are restored.
theorem mem_reads_trapRetCode (h : k ∈ s.reads Traps.trapRetCode) :
    ∃ i < 15, k = s.registers .rsp + 8 * .ofNat 64 i := by
  rw [Traps.trapRetCode, Assembly.reads_append] at h
  exact Assembly.mem_reads_pop Traps.sp_not_mem_restoredRegisters <| by simpa [State.instructionReads] using h

end Reads

section Ready

variable (hr : (buildStack trapRet processEntryPoint kernelStack m).Ready kernelStack schedulerTask s)
  {yieldTo : BitVec 64}

include hr

-- The switch does not affect the page with the stack of the process.
theorem Image.Ready.eqOn_page : Set.EqOn (pause schedulerTask yieldTo returnAddress s).memory s.memory
    (region kernelStack PageSize) :=
  fun _ hk => pause_memory_of_not_mem (Set.disjoint_right.mp hr.stack hk) (Set.disjoint_right.mp hr.task hk)

theorem Image.Ready.eqOn_image : Set.EqOn (pause schedulerTask yieldTo returnAddress s).memory
    (buildStack trapRet processEntryPoint kernelStack m).memory (region (kernelStack + 3856) 64) := by
  have hp : PageSize = 4096 := by decide
  have hi : 8 * InterruptRegisters.length = 176 := by decide
  intro k hk
  simp only [region, Set.mem_ofPred_eq] at hk
  have hk : k ∈ region kernelStack PageSize := by
    simp only [hp, region, Set.mem_ofPred_eq]
    bv_omega
  refine (hr.eqOn_page hk).trans <| hr.memory ⟨hk, ?_⟩
  simp only [hi, buildStack_eq, region, Set.mem_ofPred_eq]
  bv_omega

-- The process starts in `ProcessEntryPoint`.
theorem Image.Ready.pause_registers (hk : r ∈ KernelContext) :
    (pause schedulerTask (kernelStack + 3856) returnAddress s).registers r =
      if r = .rip then processEntryPoint else 0 := by
  have hl : 8 * KernelContext.length = 56 := by decide
  have hs : region (kernelStack + 3856) (8 * KernelContext.length) ⊆ region (kernelStack + 3856) 64 :=
    region_subset (by rw [hl]; bv_omega)
  rw [Switch.pause_registers hk, field_congr hk (by decide) (hr.eqOn_image.mono hs)]
  by_cases h : r = .rip
  case pos => rw [if_pos h, h, field_buildStack_rip]
  case neg => rw [if_neg h, field_buildStack_of_ne hk h]

variable {s₂ : State Register} (hb : Balanced (pause schedulerTask (kernelStack + 3856) returnAddress s) s₂)

include hb

omit hr in
theorem Balanced.rsp_eq : s₂.registers .rsp = kernelStack + 3912 := by
  have ha : kernelStack + 3856 + 56 = kernelStack + 3912 := by bv_omega
  rw [hb.rsp, pause_rsp, ha]

omit hr in
theorem Balanced.eqOn : Set.EqOn s₂.memory (pause schedulerTask (kernelStack + 3856) returnAddress s).memory
    (region (kernelStack + 3912) 184) := by
  have hi : 8 + 8 * InterruptRegisters.length = 184 := by decide
  have h := hb.memory
  rwa [← hb.rsp, hb.rsp_eq, hi] at h

-- The return address of `ProcessEntryPoint`.
theorem Image.Ready.load_trapRet : s₂.memory.load (kernelStack + 3912) = trapRet := by
  have h₁ : region (kernelStack + 3912) 8 ⊆ region (kernelStack + 3912) 184 := region_subset (by bv_omega)
  have h₂ : region (kernelStack + 3912) 8 ⊆ region (kernelStack + 3856) 64 := region_subset (by bv_omega)
  have ht : (buildStack trapRet processEntryPoint kernelStack m).memory.load (kernelStack + 3912) = trapRet :=
    load_buildStack_trapRet
  rw [load_congr (hb.eqOn.mono h₁), load_congr (hr.eqOn_image.mono h₂), ht]

-- The trap frame is as the owner of the process has left it.
theorem Image.Ready.field_trapFrame (f : InterruptRegisters.Field) :
    s₂.memory.field InterruptRegisters (kernelStack + 3920) f =
      s.memory.field InterruptRegisters (kernelStack + 3920) f := by
  have hi : 8 * InterruptRegisters.length = 176 := by decide
  have hp : PageSize = 4096 := by decide
  have hf := Traps.mem_interruptRegisters f
  have hl : 8 * InterruptRegisters.length ≤ 2 ^ 64 := by decide
  have h₁ : region (kernelStack + 3920) (8 * InterruptRegisters.length) ⊆ region (kernelStack + 3912) 184 :=
    region_subset (by rw [hi]; bv_omega)
  have h₂ : region (kernelStack + 3920) (8 * InterruptRegisters.length) ⊆ region kernelStack PageSize :=
    region_subset (by rw [hi, hp]; bv_omega)
  rw [field_congr hf hl (hb.eqOn.mono h₁), field_congr hf hl (hr.eqOn_page.mono h₂)]

omit hr in
theorem Balanced.ret_rsp : (s₂.run [.pop .rip]).registers .rsp = kernelStack + 3920 := by
  have ha : kernelStack + 3912 + 8 = kernelStack + 3920 := by bv_omega
  have hr : (s₂.pop .rip).registers .rsp = s₂.registers .rsp + 8 := Assembly.pop_sp (by decide)
  rw [← ha, ← hb.rsp_eq, ← hr, Assembly.run_cons, Assembly.run_nil, State.execute]

-- All words are read from the page with the stack.
omit hr in
theorem Balanced.reads_subset
    (hk : k ∈ dispatchReads (callPause schedulerTask (kernelStack + 3856) returnAddress s) s₂ (s₂.run [.pop .rip])) :
    region k 8 ⊆ region kernelStack PageSize := by
  have hp : PageSize = 4096 := by decide
  have hs : (s₂.run [.pop .rip]).registers .rsp = kernelStack + 3920 := hb.ret_rsp
  rw [hp]
  apply region_subset
  simp only [dispatchReads, List.mem_append, or_assoc] at hk
  rcases hk with hk | hk | hk | hk
  case inl =>
    have hl : KernelContext.length = 7 := by decide
    obtain ⟨i, hi, hk⟩ := mem_reads_pauseCode hk
    bv_omega
  case inr.inl =>
    have hk : k = s₂.registers .rsp := List.mem_singleton.mp hk
    have hr := hb.rsp_eq
    bv_omega
  case inr.inr.inl =>
    obtain ⟨i, hi, hk⟩ := mem_reads_trapRetCode hk
    rw [hs] at hk
    bv_omega
  case inr.inr.inr =>
    have hl : Traps.interruptFrame.length = 5 := by decide
    obtain ⟨i, hi, hk⟩ := List.mem_map.mp hk
    have hi := List.mem_range.mp hi
    rw [Traps.run_trapRetCode, Assembly.set_self, hs] at hk
    bv_omega

end Ready

-- A process whose stack is at 0x5000, and whose trap frame has been given an instruction and a stack pointer. The
-- scheduler has its stack at 0x2000.
def newProcess : Image :=
  buildStack 1 2 0x5000 fun _ => 0

def scheduler : State Register where
  registers _ := 0x2000
  memory      := (newProcess.memory.store 0x5fd8 0x400000).store 0x5ff0 0x7ff000

-- `ProcessEntryPoint` changes all registers except for the stack pointer, and uses the stack below it.
def entryPointReturns (s : State Register) : State Register where
  registers r := if r = .rsp then s.registers .rsp else 0xff
  memory      := s.memory.store (s.registers .rsp - 8) 0x77

theorem ready_scheduler : newProcess.Ready 0x5000 0x100 scheduler where
  memory := by
    have ht : newProcess.trapFrame = 0x5f50 := by decide
    rw [ht]
    intro k hk
    have hd : k ∉ region 0x5fd8 8 ∧ k ∉ region 0x5ff0 8 :=
      ⟨fun h => hk.right (region_subset (by decide) h), fun h => hk.right (region_subset (by decide) h)⟩
    exact (store_of_not_mem hd.right).trans (store_of_not_mem hd.left)
  stack  := disjoint_region (by decide) (by decide)
  task   := disjoint_region (by decide) (by decide)

theorem balanced_entryPointReturns : Balanced s (entryPointReturns s) where
  rsp    := by simp [entryPointReturns]
  memory := by
    intro k hk
    have hl : 8 * InterruptRegisters.length = 176 := by decide
    have hd : Disjoint (region (s.registers .rsp) (8 + 176)) (region (s.registers .rsp - 8) 8) :=
      disjoint_region (by bv_omega) (by bv_omega)
    exact store_of_not_mem <| Set.disjoint_left.mp hd (hl ▸ hk)

end FirstDispatch
end ProcessManagement.Switch
