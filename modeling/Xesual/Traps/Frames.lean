import Xesual.Library.Assembly
import Xesual.Traps.Entry

-- The registers that are saved on entry to the kernel and restored when it is left, as the code of `Traps.S` and
-- the records of `Traps.h` have them.

namespace Traps

open Assembly (Instruction State StackPointer)

instance : StackPointer Register where
  sp := .rsp

section Records

inductive InterruptRegisters.Field
  | register (r : Register)
  | interruptNumber
  | errorCode
  deriving DecidableEq

-- The words that are pushed by the processor when it handles an interrupt, and popped by `iretq`.
def interruptFrame : List Register :=
  [.rip, .cs, .rflags, .rsp, .ss]

-- The registers that are popped by `TrapRet` and `SyscallHandler`, in this order.
def restoredRegisters : List Register :=
  [.r15, .r14, .r13, .r12, .r11, .r10, .r9, .r8, .rbp, .rdi, .rsi, .rdx, .rcx, .rbx, .rax]

-- The fields of a record, in the order of their declaration.
def SyscallRegisters : List Register :=
  [.r15, .r14, .r13, .r12, .r11, .r10, .r9, .r8, .rbp, .rdi, .rsi, .rdx, .rcx, .rbx, .rax]

def InterruptRegisters : List InterruptRegisters.Field :=
  [ .register .r15, .register .r14, .register .r13, .register .r12,
    .register .r11, .register .r10, .register .r9, .register .r8,
    .register .rbp, .register .rdi, .register .rsi, .register .rdx, .register .rcx, .register .rbx, .register .rax,
    .interruptNumber, .errorCode,
    .register .rip, .register .cs, .register .rflags, .register .rsp, .register .ss ]

end Records

section Interrupts

-- The interrupts for which the processor pushes an error code.
def HasErrorCode (vector : Nat) : Prop :=
  vector ∈ [8, 10, 11, 12, 13, 14, 17, 21, 29, 30]

instance {vector : Nat} : Decidable (HasErrorCode vector) :=
  inferInstanceAs (Decidable (_ ∈ _))

-- What the processor does with the stack whose pointer is `top` before it continues with the handler. The values
-- that the handler itself finds in `cs`, `ss` and `rflags` are left out.
def interrupt (top : BitVec 64) (vector : Nat) (errorCode : BitVec 64) (s : State Register) : State Register :=
  (s.set .rsp top).pushAll <|
    interruptFrame.reverse.map s.registers ++ if HasErrorCode vector then [errorCode] else []

-- `_isr123` up to the comparison. The address of `LocalAPIC::lapic` is determined when the kernel is linked.
def clockInterruptCode (lapic : BitVec 64) : List (Instruction Register) :=
  [.push (.register .r12), .load (.absolute lapic) .r12, .add 0xb0 .r12, .pop .r12]

-- The state in which a handler jumps to `TrapCommon`, if it does.
def Stub.enter (lapic : BitVec 64) (s : State Register) : Stub → Option (State Register)
  | .noErrorCode number   => some (s.run [.push (.immediate 0), .push (.immediate (.ofNat 64 number))])
  | .withErrorCode number => some (s.run [.push (.immediate (.ofNat 64 number))])
  | .clockInterrupt       =>
    let s := s.run (clockInterruptCode lapic)
    if s.memory.load (s.registers .rsp + 8) = 8 then
      none
    else
      -- The operand `ClockInterrupt` lacks the dollar sign, so it is an address.
      some (s.run [.push (.immediate 0), .push (.absolute 123)])
  | .badTLBInterrupt      => none
  | .noOpInterrupt        => none
  | .haltInterrupt        => none

-- `TrapCommon` up to and including the call, after which the processor continues at `returnAddress`.
def trapCommonCode (returnAddress : BitVec 64) : List (Instruction Register) :=
  generalRegisters.map (fun r => .push (.register r)) ++
    [.load (.register .rsp) .rdi, .push (.immediate returnAddress)]

-- The state at the beginning of `TrapHandler`.
def trapHandlerState (lapic returnAddress top : BitVec 64) (vector : Nat) (errorCode : BitVec 64)
    (s : State Register) : Option (State Register) := do
  let stub ← gate vector
  let s ← stub.enter lapic (interrupt top vector errorCode s)
  return s.run (trapCommonCode returnAddress)

def iretq (s : State Register) : State Register :=
  { s with
    registers := fun r =>
      if r ∈ interruptFrame then s.memory.field interruptFrame (s.registers .rsp) r else s.registers r }

-- `TrapRet` up to `iretq`.
def trapRetCode : List (Instruction Register) :=
  restoredRegisters.map .pop ++ [.add 16 .rsp]

def trapRet (s : State Register) : State Register :=
  iretq (s.run trapRetCode)

-- The end of `TrapCommon`, from the return of `TrapHandler` on.
def trapCommonReturn (s : State Register) : State Register :=
  trapRet <| s.run [.load (.register .rax) .rsp]

-- The word that is pushed as the number of the clock interrupt, if it does not interrupt the kernel.
def clockWord (top : BitVec 64) (s : State Register) : BitVec 64 :=
  ((interrupt top 123 0 s).push 0).memory.load 123

-- The interrupts with an error code whose handlers push another one.
def ErrorCodeIgnored (vector : Nat) : Prop :=
  vector ∈ [17, 21, 29, 30]

instance {vector : Nat} : Decidable (ErrorCodeIgnored vector) :=
  inferInstanceAs (Decidable (_ ∈ _))

-- The record that `TrapHandler` gets in state `s`.
def received (s : State Register) (f : InterruptRegisters.Field) : BitVec 64 :=
  s.memory.field InterruptRegisters (s.registers .rdi) f

-- `TrapHandler` is called in state `s` when the processor is interrupted with the given registers. If the handler
-- returns its argument and has not modified the record, the interrupted code is resumed as it was.
structure RoundTrip (interrupted : Registers) (vector : Nat) (s : State Register) : Prop where
  interruptNumber : received s .interruptNumber = .ofNat 64 vector
  registers       : ∀ r, received s (.register r) = interrupted r
  resumed         : ∀ s' : State Register, s'.registers .rax = s.registers .rdi →
    (∀ f, s'.memory.field InterruptRegisters (s.registers .rdi) f = received s f) →
    (trapCommonReturn s').registers = interrupted

end Interrupts

section Syscalls

-- The registers together with the base addresses of the segment `gs`.
inductive SyscallRegister
  | register (r : Register)
  | gsBase
  | kernelGSBase
  deriving DecidableEq

instance : StackPointer SyscallRegister where
  sp := .register .rsp

def UserStackOffset : BitVec 64 := 208

def KernelInterruptStackOffset : BitVec 64 := 24

-- The fields of `CPUState` end with `userStack` and `schedulerTask`.
def sizeofCPUState : Nat := 224

-- What the processor does when user code executes `syscall`. It continues at the beginning of `SyscallHandler`.
def syscall (s : State SyscallRegister) : State SyscallRegister :=
  (s.set (.register .rcx) (s.registers (.register .rip))).set (.register .r11) (s.registers (.register .rflags))

-- `SyscallHandler` up to and including the call.
def syscallHandlerCode (returnAddress : BitVec 64) : List (Instruction SyscallRegister) :=
  [ .exchange .gsBase .kernelGSBase,
    .store (.register .rsp) .gsBase UserStackOffset,
    .load (.relative .gsBase KernelInterruptStackOffset) (.register .rsp) ] ++
  (generalRegisters.map .register).map (fun r => .push (.register r)) ++
  [.load (.register (.register .rsp)) (.register .rdi), .push (.immediate returnAddress)]

-- The state at the beginning of `KernelSyscallHandler`.
def kernelSyscallHandlerState (returnAddress : BitVec 64) (s : State SyscallRegister) : State SyscallRegister :=
  (syscall s).run (syscallHandlerCode returnAddress)

-- The flags are taken from `r11`, apart from those that are reserved or must not be set. The selectors that are
-- loaded into `cs` and `ss` are left out.
def sysretq (s : State SyscallRegister) : State SyscallRegister :=
  (s.set (.register .rip) (s.registers (.register .rcx))).set (.register .rflags)
    (s.registers (.register .r11) &&& 0x3c7fd7 ||| 2)

-- The end of `SyscallHandler`, from the return of `KernelSyscallHandler` on.
def syscallHandlerReturn (s : State SyscallRegister) : State SyscallRegister :=
  sysretq <| s.run <|
    [.load (.register (.register .rax)) (.register .rsp)] ++
    (restoredRegisters.map .register).map .pop ++
    [.load (.relative .gsBase UserStackOffset) (.register .rsp), .exchange .gsBase .kernelGSBase]

-- The words that are pushed by `SyscallHandler` do not overlap with `CPUState`.
def StackApart (s : State SyscallRegister) : Prop :=
  let cpu := s.registers .kernelGSBase
  let stack := s.memory.load (cpu + KernelInterruptStackOffset)
  Disjoint (Memory.region (stack - 128) 128) (Memory.region cpu sizeofCPUState)

-- What is known about the state in which `KernelSyscallHandler` returns, when it has been called in state `s`. It
-- returns its argument, leaves the bases of `gs` as they are, and does not write to `userStack`.
structure Returns (s s' : State SyscallRegister) : Prop where
  rax          : s'.registers (.register .rax) = s.registers (.register .rdi)
  gsBase       : s'.registers .gsBase = s.registers .gsBase
  kernelGSBase : s'.registers .kernelGSBase = s.registers .kernelGSBase
  userStack    : s'.memory.load (s.registers .gsBase + UserStackOffset) =
    s.memory.load (s.registers .gsBase + UserStackOffset)

-- User code that has executed `syscall` in state `s` is resumed in state `t`, with the registers of the record `saved`.
structure Resumed (s t : State SyscallRegister) (saved : Register → BitVec 64) : Prop where
  registers    : ∀ r ∈ generalRegisters, t.registers (.register r) = saved r
  rip          : t.registers (.register .rip) = saved .rcx
  rflags       : t.registers (.register .rflags) = saved .r11 &&& 0x3c7fd7 ||| 2
  rsp          : t.registers (.register .rsp) = s.registers (.register .rsp)
  gsBase       : t.registers .gsBase = s.registers .gsBase
  kernelGSBase : t.registers .kernelGSBase = s.registers .kernelGSBase

end Syscalls
end Traps
