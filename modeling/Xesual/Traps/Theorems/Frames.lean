import Xesual.Traps.Frames

namespace Traps

open Assembly (State StackPointer run_append run_push run_pop pushAll_append)
open Memory

section Records

theorem interruptRegisters_eq :
    InterruptRegisters = restoredRegisters.map .register ++
      ([.interruptNumber, .errorCode] ++ interruptFrame.map .register) := rfl

theorem sp_not_mem_generalRegisters : StackPointer.sp ∉ generalRegisters := by decide

theorem sp_not_mem_restoredRegisters : StackPointer.sp ∉ restoredRegisters := by decide

theorem nodup_restoredRegisters : restoredRegisters.Nodup := by decide

theorem mem_restoredRegisters_iff {r : Register} : r ∈ restoredRegisters ↔ r ∉ interruptFrame := by
  cases r <;> decide

theorem mem_interruptRegisters (f : InterruptRegisters.Field) : f ∈ InterruptRegisters := by
  cases f
  case register r => cases r <;> decide
  all_goals decide

end Records

variable {s s' u : State Register} {r : Register} {vector : Nat} {lapic returnAddress top errorCode : BitVec 64}

section TrapRet

theorem run_trapRetCode : s.run trapRetCode =
    (s.popAll restoredRegisters).set .rsp (s.registers .rsp + 136) := by
  have hs : (s.popAll restoredRegisters).registers .rsp = s.registers .rsp + 120 :=
    Assembly.popAll_sp sp_not_mem_restoredRegisters
  have ha : s.registers .rsp + 120 + 16 = s.registers .rsp + 136 := BitVec.add_assoc ..
  rw [trapRetCode, run_append, run_pop, Assembly.run_cons, Assembly.run_nil, State.execute, hs, ha]

theorem iretq_of_mem (h : r ∈ interruptFrame) :
    (iretq s).registers r = s.memory.field interruptFrame (s.registers .rsp) r :=
  if_pos h

theorem iretq_of_not_mem (h : r ∉ interruptFrame) : (iretq s).registers r = s.registers r :=
  if_neg h

-- `TrapRet` loads every register from the field of that name.
theorem trapRet_registers :
    (trapRet s).registers r = s.memory.field InterruptRegisters (s.registers .rsp) (.register r) := by
  have hi : Function.Injective InterruptRegisters.Field.register := fun _ _ h => by injection h
  rw [trapRet, run_trapRetCode, interruptRegisters_eq]
  by_cases h : r ∈ interruptFrame
  case pos =>
    have hr : InterruptRegisters.Field.register r ∉ restoredRegisters.map .register := fun hm =>
      mem_restoredRegisters_iff.mp ((List.mem_map_of_injective hi).mp hm) h
    rw [iretq_of_mem h, field_append_of_not_mem hr, field_append_of_not_mem (by simp), field_map hi]
    simp only [Assembly.set_self, Assembly.set_memory, Assembly.popAll_memory, BitVec.add_assoc]
    rfl
  case neg =>
    have hr := mem_restoredRegisters_iff.mpr h
    have hn : r ≠ .rsp := fun h' => h <| h' ▸ (by decide)
    rw [iretq_of_not_mem h, field_append_of_mem (List.mem_map_of_mem hr), field_map hi]
    exact (Assembly.set_of_ne hn).trans <|
      Assembly.popAll_of_mem hr sp_not_mem_restoredRegisters nodup_restoredRegisters

end TrapRet

section TrapHandler

-- A record, given by the values of its fields.
def record (registers : Registers) (interruptNumber errorCode : BitVec 64) : InterruptRegisters.Field → BitVec 64
  | .register r      => registers r
  | .interruptNumber => interruptNumber
  | .errorCode       => errorCode

-- The registers as they are found in the record if there is one word too many below the words of `iretq`.
def shifted (registers : Registers) (errorCode : BitVec 64) : Registers
  | .rip    => errorCode
  | .cs     => registers .rip
  | .rflags => registers .cs
  | .rsp    => registers .rflags
  | .ss     => registers .rsp
  | r       => registers r

-- If all words of a record have been pushed, `TrapHandler` gets this record.
theorem received_eq {value : InterruptRegisters.Field → BitVec 64} (f : InterruptRegisters.Field)
    (h : s.pushAll (generalRegisters.map s.registers) = u.pushAll (InterruptRegisters.reverse.map value)) :
    received (s.run (trapCommonCode returnAddress)) f = value f := by
  have hl : 8 * InterruptRegisters.length + 8 ≤ 2 ^ 64 := by decide
  have hm := mem_interruptRegisters f
  have hf := Assembly.pushAll_field (s := u) value hm (Nat.le_of_add_right_le hl)
  rw [trapCommonCode, run_append, run_push sp_not_mem_generalRegisters, h]
  generalize u.pushAll (InterruptRegisters.reverse.map value) = t at hf
  rw [← hf]
  exact Assembly.push_field (s := t.set .rdi (t.registers .rsp)) hm hl

theorem interrupt_registers (h : r ≠ .rsp) : (interrupt top vector errorCode s).registers r = s.registers r :=
  (Assembly.pushAll_registers h).trans <| Assembly.set_of_ne h

theorem interrupt_of_not_hasErrorCode (h : ¬HasErrorCode vector) :
    interrupt top vector errorCode s = (s.set .rsp top).pushAll (interruptFrame.reverse.map s.registers) := by
  rw [interrupt, if_neg h, List.append_nil]

-- The words that are pushed by the processor, by the handler and by `TrapCommon` form a record, possibly with some
-- words in front of it.
theorem received_pushAll {value : InterruptRegisters.Field → BitVec 64} {vs : List (BitVec 64)}
    (ws : List (BitVec 64)) (h : interruptFrame.reverse.map s.registers ++
      (if HasErrorCode vector then [errorCode] else []) ++ (vs ++ generalRegisters.map s.registers) =
        ws ++ InterruptRegisters.reverse.map value) (f : InterruptRegisters.Field) :
    received (((interrupt top vector errorCode s).pushAll vs).run (trapCommonCode returnAddress)) f = value f := by
  refine received_eq (u := (s.set .rsp top).pushAll ws) f ?_
  have hr : generalRegisters.map ((interrupt top vector errorCode s).pushAll vs).registers =
      generalRegisters.map s.registers := by
    refine List.map_congr_left fun r hr => ?_
    have hn : r ≠ .rsp := ne_of_mem_of_not_mem hr sp_not_mem_generalRegisters
    rw [Assembly.pushAll_registers hn, interrupt_registers hn]
  rw [hr, interrupt, ← pushAll_append, ← pushAll_append, h, pushAll_append]

theorem received_noErrorCode {number : BitVec 64} (h : ¬HasErrorCode vector) :
    received (((interrupt top vector errorCode s).pushAll [0, number]).run (trapCommonCode returnAddress)) =
      record s.registers number 0 := by
  refine funext <| received_pushAll [] ?_
  rw [if_neg h]
  rfl

-- The error code of the processor takes the place of the instruction pointer.
theorem received_noErrorCode_shifted {number : BitVec 64} (h : HasErrorCode vector) :
    received (((interrupt top vector errorCode s).pushAll [0, number]).run (trapCommonCode returnAddress)) =
      record (shifted s.registers errorCode) number 0 := by
  refine funext <| received_pushAll [s.registers .ss] ?_
  rw [if_pos h]
  rfl

theorem received_withErrorCode {number : BitVec 64} (h : HasErrorCode vector) :
    received (((interrupt top vector errorCode s).pushAll [number]).run (trapCommonCode returnAddress)) =
      record s.registers number errorCode := by
  refine funext <| received_pushAll [] ?_
  rw [if_pos h]
  rfl

section ClockInterrupt

-- The access to the local interrupt controller only leaves behind a word below the stack pointer.
theorem run_clockInterruptCode_registers : (s.run (clockInterruptCode lapic)).registers = s.registers := by
  funext r
  by_cases h : r = .r12
  case pos => exact h ▸ load_store
  case neg =>
    by_cases hs : r = .rsp
    case pos => exact hs ▸ BitVec.sub_add_cancel ..
    case neg => simp [clockInterruptCode, State.execute, State.set, State.pop, State.push, StackPointer.sp, h, hs]

theorem run_clockInterruptCode_memory :
    (s.run (clockInterruptCode lapic)).memory = (s.push (s.registers .r12)).memory := rfl

theorem push_run_clockInterruptCode : (s.run (clockInterruptCode lapic)).push 0 = s.push 0 := by
  simp only [State.push, run_clockInterruptCode_registers, run_clockInterruptCode_memory, store_store]

-- The clock interrupt is ignored if and only if it interrupts the kernel.
theorem enter_clockInterrupt_eq_none_iff :
    Stub.clockInterrupt.enter lapic (interrupt top 123 errorCode s) = none ↔ s.registers .cs = 8 := by
  have hl : 8 * interruptFrame.length + 8 ≤ 2 ^ 64 := by decide
  have hm : .cs ∈ interruptFrame := by decide
  have hv : ¬HasErrorCode 123 := by decide
  have hc := Assembly.pushAll_field (s := s.set .rsp top) s.registers hm (Nat.le_of_add_right_le hl)
  have hi : interrupt top 123 errorCode s = _ := interrupt_of_not_hasErrorCode hv
  rw [← hi] at hc
  generalize interrupt top 123 errorCode s = t at hc ⊢
  have hf (m : Memory) (a : BitVec 64) : m.field interruptFrame a .cs = m.load (a + 8) := by
    rw [interruptFrame, field_cons_of_ne (by decide), field_cons_self]
  have hc : (t.run (clockInterruptCode lapic)).memory.load
      ((t.run (clockInterruptCode lapic)).registers .rsp + 8) = s.registers .cs := by
    rw [run_clockInterruptCode_registers, run_clockInterruptCode_memory, ← hf]
    exact (Assembly.push_field hm hl).trans hc
  simp only [Stub.enter, hc, ite_eq_left_iff, reduceCtorEq, imp_false, not_not]

theorem enter_clockInterrupt {t t' : State Register} (h : Stub.clockInterrupt.enter lapic t = some t') :
    t' = t.pushAll [0, (t.push 0).memory.load 123] := by
  simp only [Stub.enter, Option.ite_none_left_eq_some, Option.some.injEq] at h
  have ⟨_, h⟩ := h
  have hp : (t.run (clockInterruptCode lapic)).push 0 = t.push 0 := push_run_clockInterruptCode
  generalize t.run (clockInterruptCode lapic) = u at h hp
  cases h
  change (u.push 0).push ((u.push 0).memory.load 123) = (t.push 0).push ((t.push 0).memory.load 123)
  rw [hp]

end ClockInterrupt

theorem gate_eq_some {stub : Stub} (h : gate vector = some stub) :
    match stub with
    | .noErrorCode number   =>
      vector = number ∧ vector ≠ 123 ∧ (HasErrorCode vector ↔ ErrorCodeIgnored vector)
    | .withErrorCode number =>
      vector = number ∧ vector ≠ 123 ∧ HasErrorCode vector ∧ ¬ErrorCodeIgnored vector
    | .clockInterrupt       => vector = 123
    | _                     => True := by
  unfold gate at h
  split at h
  case h_13 =>
    have ⟨_, h⟩ := Option.ite_none_right_eq_some.mp h
    cases h
    simp only [HasErrorCode, ErrorCodeIgnored, List.mem_cons, List.not_mem_nil, or_false]
    grind
  all_goals
    cases h
    simp [HasErrorCode, ErrorCodeIgnored]

theorem received_trapHandlerState (h : trapHandlerState lapic returnAddress top vector errorCode s = some s') :
    received s' =
      if vector = 123 then record s.registers (clockWord top s) 0
      else if ErrorCodeIgnored vector then record (shifted s.registers errorCode) (.ofNat 64 vector) 0
      else record s.registers (.ofNat 64 vector) (if HasErrorCode vector then errorCode else 0) := by
  have ⟨stub, hg, h⟩ := Option.bind_eq_some_iff.mp h
  have ⟨t, ht, h⟩ := Option.bind_eq_some_iff.mp h
  cases h
  have hg := gate_eq_some hg
  cases stub
  case noErrorCode =>
    have ⟨hn, hv, hi⟩ := hg
    subst hn
    cases ht
    rw [if_neg hv]
    by_cases he : HasErrorCode vector
    case pos => rw [if_pos (hi.mp he)]; exact received_noErrorCode_shifted he
    case neg => rw [if_neg (mt hi.mpr he), if_neg he]; exact received_noErrorCode he
  case withErrorCode =>
    have ⟨hn, hv, he, hi⟩ := hg
    subst hn
    cases ht
    rw [if_neg hv, if_neg hi, if_pos he]
    exact received_withErrorCode he
  case clockInterrupt =>
    cases (show vector = 123 from hg)
    have hn : ¬HasErrorCode 123 := by decide
    have he : interrupt top 123 errorCode s = interrupt top 123 0 s :=
      (interrupt_of_not_hasErrorCode hn).trans (interrupt_of_not_hasErrorCode hn).symm
    rw [if_pos rfl, enter_clockInterrupt ht, he, ← clockWord]
    exact received_noErrorCode hn
  all_goals nomatch ht

-- The words that are found at the place of the words of `iretq`.
theorem shifted_eq_iff {registers : Registers} :
    (∀ r, shifted registers errorCode r = registers r) ↔
      errorCode = registers .rip ∧ registers .rip = registers .cs ∧ registers .cs = registers .rflags ∧
        registers .rflags = registers .rsp ∧ registers .rsp = registers .ss := by
  constructor
  case mp  => exact fun h => ⟨h .rip, h .cs, h .rflags, h .rsp, h .ss⟩
  case mpr =>
    intro ⟨h₁, h₂, h₃, h₄, h₅⟩ r
    cases r <;> first | rfl | assumption

-- It depends on the record alone whether the interrupted code is resumed as it was.
theorem roundTrip_iff_record {registers : Registers} {number e : BitVec 64}
    {interrupted : Registers} (h : received s = record registers number e) :
    RoundTrip interrupted vector s ↔ number = .ofNat 64 vector ∧ ∀ r, registers r = interrupted r := by
  constructor
  case mp  =>
    exact fun hr => ⟨(congrFun h _).symm.trans hr.interruptNumber, fun r => (congrFun h _).symm.trans (hr.registers r)⟩
  case mpr =>
    intro ⟨hn, hr⟩
    refine ⟨(congrFun h _).trans hn, fun r => (congrFun h _).trans (hr r), fun s' ha hf => funext fun r => ?_⟩
    have hs : (s'.run [.load (.register .rax) .rsp]).registers .rsp = s.registers .rdi := by
      rw [← ha, Assembly.run_cons, Assembly.run_nil, State.execute, State.value, Assembly.set_self]
    rw [trapCommonReturn, trapRet_registers, hs]
    exact (hf _).trans <| (congrFun h _).trans (hr r)

-- The interrupted code is resumed as it was, unless the handler pushes a second error code or the word at address
-- 123 as number of the interrupt.
theorem roundTrip_iff (h : trapHandlerState lapic returnAddress top vector errorCode s = some s') :
    RoundTrip s.registers vector s' ↔
      (ErrorCodeIgnored vector → errorCode = s.registers .rip ∧ s.registers .rip = s.registers .cs ∧
        s.registers .cs = s.registers .rflags ∧ s.registers .rflags = s.registers .rsp ∧
        s.registers .rsp = s.registers .ss) ∧
      (vector = 123 → clockWord top s = 123) := by
  have hr := received_trapHandlerState h
  by_cases hv : vector = 123
  case pos =>
    subst hv
    rw [roundTrip_iff_record hr]
    simp [ErrorCodeIgnored]
  case neg =>
    rw [if_neg hv] at hr
    by_cases hi : ErrorCodeIgnored vector
    case pos =>
      rw [if_pos hi] at hr
      rw [roundTrip_iff_record hr, shifted_eq_iff]
      simp [hi, hv]
    case neg =>
      rw [if_neg hi] at hr
      rw [roundTrip_iff_record hr]
      simp [hi, hv]

-- A state in which all registers have different values.
def distinctRegisters : State Register where
  registers r := 0x1000 + 8 * .ofNat 64 (InterruptRegisters.idxOf (.register r))
  memory _    := 0x55

theorem roundTrip_timer : ∃ s', trapHandlerState 0xffff8000fee00000 0xffffffff80001234 0x8000 32 0 distinctRegisters =
    some s' ∧ RoundTrip distinctRegisters.registers 32 s' :=
  have h : trapHandlerState 0xffff8000fee00000 0xffffffff80001234 0x8000 32 0 distinctRegisters = some _ := rfl
  ⟨_, h, roundTrip_iff h |>.mpr ⟨by decide, by decide⟩⟩

-- An alignment check exception without error code: the handler finds zero in the field `rip`.
theorem not_roundTrip_alignmentCheck :
    ¬∀ (lapic returnAddress top errorCode : BitVec 64) (vector : Nat) (s s' : State Register),
      trapHandlerState lapic returnAddress top vector errorCode s = some s' → RoundTrip s.registers vector s' := by
  intro h
  have hs : trapHandlerState 0 0 0x8000 17 0 ⟨fun _ => 0x1000, fun _ => 0⟩ = some _ := rfl
  have hr := (h 0 0 0x8000 0 17 _ _ hs).registers .rip
  rw [received_trapHandlerState hs] at hr
  exact absurd hr (by decide)

end TrapHandler

section SyscallHandler

variable {u s s' : State SyscallRegister} {returnAddress : BitVec 64}

-- The state of `SyscallHandler` when it starts to push the registers.
def onKernelStack (u : State SyscallRegister) : State SyscallRegister :=
  (syscall u).run
    [ .exchange .gsBase .kernelGSBase,
      .store (.register .rsp) .gsBase UserStackOffset,
      .load (.relative .gsBase KernelInterruptStackOffset) (.register .rsp) ]

theorem onKernelStack_registers {r : Register} (h : r ≠ .rsp) :
    (onKernelStack u).registers (.register r) = (syscall u).registers (.register r) := by
  simp [onKernelStack, State.execute, State.set, h]

theorem onKernelStack_gsBase : (onKernelStack u).registers .gsBase = u.registers .kernelGSBase := by
  simp [onKernelStack, syscall, State.execute, State.set]

theorem onKernelStack_kernelGSBase : (onKernelStack u).registers .kernelGSBase = u.registers .gsBase := by
  simp [onKernelStack, syscall, State.execute, State.set]

theorem onKernelStack_memory : (onKernelStack u).memory =
    u.memory.store (u.registers .kernelGSBase + UserStackOffset) (u.registers (.register .rsp)) := by
  simp [onKernelStack, syscall, State.execute, State.set]

theorem onKernelStack_rsp : (onKernelStack u).registers (.register .rsp) =
    u.memory.load (u.registers .kernelGSBase + KernelInterruptStackOffset) := by
  have hd : Disjoint (region (u.registers .kernelGSBase + UserStackOffset) 8)
      (region (u.registers .kernelGSBase + KernelInterruptStackOffset) 8) :=
    disjoint_region (by unfold UserStackOffset KernelInterruptStackOffset; bv_omega)
      (by unfold UserStackOffset KernelInterruptStackOffset; bv_omega)
  rw [← load_store_of_disjoint (v := u.registers (.register .rsp)) hd]
  simp [onKernelStack, syscall, State.execute, State.set, State.value]

theorem register_injective : Function.Injective SyscallRegister.register :=
  fun _ _ h => by injection h

-- The words that are pushed by `SyscallHandler` before the call.
def pushedRegisters (u : State SyscallRegister) : List (BitVec 64) :=
  SyscallRegisters.reverse.map fun r => (syscall u).registers (.register r)

theorem kernelSyscallHandlerState_eq : kernelSyscallHandlerState returnAddress u =
    (((onKernelStack u).pushAll (pushedRegisters u)).set (.register .rdi)
      (((onKernelStack u).pushAll (pushedRegisters u)).registers (.register .rsp))).push returnAddress := by
  have hs : StackPointer.sp ∉ generalRegisters.map SyscallRegister.register :=
    fun h => sp_not_mem_generalRegisters <| (List.mem_map_of_injective register_injective).mp h
  have hr : (generalRegisters.map SyscallRegister.register).map (onKernelStack u).registers = pushedRegisters u := by
    rw [List.map_map]
    exact List.map_congr_left fun r hr => onKernelStack_registers <| ne_of_mem_of_not_mem hr sp_not_mem_generalRegisters
  rw [kernelSyscallHandlerState, syscallHandlerCode, run_append, run_append, ← onKernelStack, run_push hs, hr]
  rfl

-- `KernelSyscallHandler` gets the registers of the user code.
theorem field_kernelSyscallHandlerState {r : Register} (hr : r ∈ SyscallRegisters) :
    (kernelSyscallHandlerState returnAddress u).memory.field SyscallRegisters
      ((kernelSyscallHandlerState returnAddress u).registers (.register .rdi)) r =
        (syscall u).registers (.register r) := by
  have hl : 8 * SyscallRegisters.length + 8 ≤ 2 ^ 64 := by decide
  have hf := Assembly.pushAll_field (s := onKernelStack u) (fun r => (syscall u).registers (.register r)) hr
    (Nat.le_of_add_right_le hl)
  rw [kernelSyscallHandlerState_eq]
  rw [← pushedRegisters] at hf
  generalize (onKernelStack u).pushAll (pushedRegisters u) = t at hf
  rw [← hf]
  exact Assembly.push_field (s := t.set (.register .rdi) (t.registers (.register .rsp))) hr hl

theorem kernelSyscallHandlerState_gsBase :
    (kernelSyscallHandlerState returnAddress u).registers .gsBase = u.registers .kernelGSBase := by
  have hs : SyscallRegister.gsBase ≠ StackPointer.sp := by decide
  rw [kernelSyscallHandlerState_eq, Assembly.push_registers hs, Assembly.set_of_ne (by decide),
    Assembly.pushAll_registers hs, onKernelStack_gsBase]

theorem kernelSyscallHandlerState_kernelGSBase :
    (kernelSyscallHandlerState returnAddress u).registers .kernelGSBase = u.registers .gsBase := by
  have hs : SyscallRegister.kernelGSBase ≠ StackPointer.sp := by decide
  rw [kernelSyscallHandlerState_eq, Assembly.push_registers hs, Assembly.set_of_ne (by decide),
    Assembly.pushAll_registers hs, onKernelStack_kernelGSBase]

-- The pushes leave the stack pointer of the user code where it has been stored.
theorem load_kernelSyscallHandlerState (h : StackApart u) :
    (kernelSyscallHandlerState returnAddress u).memory.load (u.registers .kernelGSBase + UserStackOffset) =
      u.registers (.register .rsp) := by
  have hm : (kernelSyscallHandlerState returnAddress u).memory =
      ((onKernelStack u).pushAll (pushedRegisters u ++ [returnAddress])).memory := by
    rw [kernelSyscallHandlerState_eq, Assembly.pushAll_concat, Assembly.set_push_memory (by decide)]
  have hl : (pushedRegisters u ++ [returnAddress]).length = 16 := rfl
  have hu : region (u.registers .kernelGSBase + UserStackOffset) 8 ⊆
      region (u.registers .kernelGSBase) sizeofCPUState :=
    region_subset (by unfold UserStackOffset sizeofCPUState; bv_omega)
  have hc : Set.EqOn ((onKernelStack u).pushAll (pushedRegisters u ++ [returnAddress])).memory
      (onKernelStack u).memory (region (u.registers .kernelGSBase + UserStackOffset) 8) := by
    have hs : (onKernelStack u).registers StackPointer.sp = _ := onKernelStack_rsp
    have hw : (8 : BitVec 64) * .ofNat 64 16 = 128 := by decide
    refine fun k hk => Assembly.pushAll_memory (by rw [hl]; decide) fun hk' => ?_
    rw [hl, hs, hw] at hk'
    exact Set.disjoint_left.mp h hk' (hu hk)
  rw [hm, load_congr hc, onKernelStack_memory, load_store]

-- The state of `SyscallHandler` when it has popped the registers.
def restored (s : State SyscallRegister) : State SyscallRegister :=
  (s.set (.register .rsp) (s.registers (.register .rax))).popAll (restoredRegisters.map .register)

theorem syscallHandlerReturn_eq : syscallHandlerReturn s = sysretq ((restored s).run
    [.load (.relative .gsBase UserStackOffset) (.register .rsp), .exchange .gsBase .kernelGSBase]) := by
  rw [syscallHandlerReturn, run_append, run_append, run_pop]
  rfl

theorem restored_of_mem {r : Register} (hr : r ∈ restoredRegisters) :
    (restored s).registers (.register r) =
      s.memory.field SyscallRegisters (s.registers (.register .rax)) r := by
  have hs : StackPointer.sp ∉ restoredRegisters.map SyscallRegister.register :=
    fun h => sp_not_mem_restoredRegisters <| (List.mem_map_of_injective register_injective).mp h
  have hd := nodup_restoredRegisters.map register_injective
  have hp : (s.set (.register .rsp) (s.registers (.register .rax))).registers StackPointer.sp = _ :=
    Assembly.set_self
  rw [restored, Assembly.popAll_of_mem (List.mem_map_of_mem hr) hs hd, field_map register_injective, hp]
  rfl

theorem restored_gsBase : (restored s).registers .gsBase = s.registers .gsBase := by
  rw [restored, Assembly.popAll_of_not_mem (by simp) (by decide), Assembly.set_of_ne (by decide)]

theorem restored_kernelGSBase : (restored s).registers .kernelGSBase = s.registers .kernelGSBase := by
  rw [restored, Assembly.popAll_of_not_mem (by simp) (by decide), Assembly.set_of_ne (by decide)]

theorem restored_memory : (restored s).memory = s.memory :=
  Assembly.popAll_memory

-- The registers come from the record, and everything else is as it was before the call of `KernelSyscallHandler`.
theorem resumed (h : StackApart u) (hr : Returns (kernelSyscallHandlerState returnAddress u) s) :
    Resumed u (syscallHandlerReturn s)
      (s.memory.field SyscallRegisters
        ((kernelSyscallHandlerState returnAddress u).registers (.register .rdi))) := by
  have hg (r) (h : r ∈ restoredRegisters) := restored_of_mem (s := s) h
  have hb := restored_gsBase (s := s) |>.trans hr.gsBase |>.trans kernelSyscallHandlerState_gsBase
  have hk := restored_kernelGSBase (s := s) |>.trans hr.kernelGSBase |>.trans kernelSyscallHandlerState_kernelGSBase
  have hu := hr.userStack
  rw [kernelSyscallHandlerState_gsBase, load_kernelSyscallHandlerState h, ← restored_memory] at hu
  simp only [hr.rax] at hg
  rw [syscallHandlerReturn_eq]
  generalize restored s = t at hg hb hk hu
  constructor
  case registers =>
    intro r h
    have h : r ∈ restoredRegisters := List.mem_reverse.mpr h
    have hn := mem_restoredRegisters_iff.mp h
    rw [← hg r h]
    cases r <;> first | exact absurd (by decide) hn | simp [sysretq, State.execute, State.set]
  case rip =>
    rw [← hg .rcx (by decide)]
    simp [sysretq, State.execute, State.set]
  case rflags =>
    rw [← hg .r11 (by decide)]
    simp [sysretq, State.execute, State.set]
  case rsp => simp [sysretq, State.execute, State.set, State.value, hb, hu]
  case gsBase => simp [sysretq, State.execute, State.set, State.value, hk]
  case kernelGSBase => simp [sysretq, State.execute, State.set, State.value, hb]

-- User code for which the kernel has its `CPUState` at 0x1000 and its stack at 0x9000.
def user : State SyscallRegister where
  registers
    | .kernelGSBase   => 0x1000
    | .register .rsp  => 0x7000
    | _               => 5
  memory := Memory.store (fun _ => 0) (0x1000 + KernelInterruptStackOffset) 0x9000

end SyscallHandler
end Traps
