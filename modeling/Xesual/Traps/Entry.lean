import Xesual.PhysicalMemory.Basic

-- The stack that is used when a processor enters the kernel from ring 3 (`SharedMain` in `KernelMain.cpp`, `GDT.h`
-- and `Traps.S`).

namespace Traps

open PhysicalMemoryManagement (PageSize allocatePages)

inductive Register
  | rax | rbx | rcx | rdx | rsi | rdi | rbp | r8 | r9 | r10 | r11 | r12 | r13 | r14 | r15
  | rsp | rip | rflags | cs | ss
  deriving DecidableEq

abbrev Registers := Register → BitVec 64

-- The registers that are pushed by `TrapCommon` and `SyscallHandler`, in this order.
def generalRegisters : List Register :=
  [.rax, .rbx, .rcx, .rdx, .rsi, .rdi, .rbp, .r8, .r9, .r10, .r11, .r12, .r13, .r14, .r15]

-- The stack pointer and the words that have been written by `push` so far, given by their addresses and values.
structure Stack where
  rsp    : BitVec 64
  writes : List (BitVec 64 × BitVec 64)

inductive Op
  | push (value : BitVec 64)
  | pop

namespace Stack

def execute (s : Stack) : Op → Stack
  | .push value => ⟨s.rsp - 8, s.writes ++ [(s.rsp - 8, value)]⟩
  | .pop        => ⟨s.rsp + 8, s.writes⟩

def run (rsp : BitVec 64) (ops : List Op) : Stack :=
  ops.foldl execute ⟨rsp, []⟩

end Stack

section SharedMain

def StackSize : Nat := 16 * PageSize

-- The fields of `CPUState` and of its task state segment that are used on entry to the kernel.
structure CPUState where
  interruptStack : BitVec 64
  stackPointers  : Fin 3 → BitVec 64

-- `Table::init`
def CPUState.initTable (cpu : CPUState) (stackLocation : BitVec 64) : CPUState :=
  { cpu with stackPointers := Function.update cpu.stackPointers 0 stackLocation }

-- Lines 194-199. There is no result if the processor is halted.
def sharedMain (fuel : Nat) (memory : PhysicalMemoryManagement.State) (cpu : CPUState) :
    Option (PhysicalMemoryManagement.State × Option CPUState) :=
  (allocatePages fuel memory (StackSize / PageSize)).map fun (memory, address) =>
    let cpu : CPUState := { cpu with interruptStack := BitVec.ofNat 64 address }
    (memory, if cpu.interruptStack = 0#64 then none else some (cpu.initTable cpu.interruptStack))

end SharedMain

section Stubs

-- The handlers of `Traps.S` for the entries of the interrupt descriptor table.
inductive Stub
  | noErrorCode (number : Nat)
  | withErrorCode (number : Nat)
  | clockInterrupt
  | badTLBInterrupt
  | noOpInterrupt
  | haltInterrupt

-- `setupIDTTable`
def gate : Nat → Option Stub
  | 2   => some .haltInterrupt
  | 8   => some (.withErrorCode 8)
  | 10  => some (.withErrorCode 10)
  | 11  => some (.withErrorCode 11)
  | 12  => some (.withErrorCode 12)
  | 13  => some (.withErrorCode 13)
  | 14  => some (.withErrorCode 14)
  | 123 => some .clockInterrupt
  | 124 => some .badTLBInterrupt
  | 125 => some .haltInterrupt
  | 126 => some .noOpInterrupt
  | 128 => some (.noErrorCode 128)
  | n   => if n < 48 then some (.noErrorCode n) else none

def trapCommon (r : Registers) : List Op :=
  generalRegisters.map fun x => .push (r x)

-- The second operand that is pushed for the clock interrupt is not an immediate one, so it is read from memory.
def Stub.ops (memory : BitVec 64 → BitVec 64) (r : Registers) : Stub → List Op
  | .noErrorCode number   => [.push 0, .push (.ofNat 64 number)] ++ trapCommon r
  | .withErrorCode number => [.push (.ofNat 64 number)] ++ trapCommon r
  | .clockInterrupt       =>
    [.push (r .r12), .pop] ++
      if r .cs = 8 then [] else [.push 0, .push (memory 123)] ++ trapCommon r
  | .badTLBInterrupt      => [.push (r .r12), .pop]
  | .noOpInterrupt        => [.push (r .r12), .pop]
  | .haltInterrupt        => []

end Stubs

-- The ways in which the kernel is entered. For some interrupts the processor pushes an error code.
inductive Entry
  | interrupt (number : Nat) (errorCode : Option (BitVec 64))
  | syscall

-- When the processor handles an interrupt, it takes the stack pointer from the task state segment, aligns it to
-- 16 bytes, and pushes five words. A system call takes it from `CPUState`.
def CPUState.enter (cpu : CPUState) (memory : BitVec 64 → BitVec 64) (r : Registers) : Entry → Option Stack
  | .interrupt number errorCode =>
    (gate number).map fun stub =>
      .run (cpu.stackPointers 0 >>> 4 <<< 4) <|
        [.push (r .ss), .push (r .rsp), .push (r .rflags), .push (r .cs), .push (r .rip)] ++
          errorCode.toList.map .push ++ stub.ops memory r
  | .syscall => some (.run cpu.interruptStack (generalRegisters.map fun x => .push (r x)))

-- The word lies in the pages that have been allocated for the stack.
def CPUState.InStack (cpu : CPUState) (address : BitVec 64) : Prop :=
  cpu.interruptStack.toNat ≤ address.toNat ∧ address.toNat + 8 ≤ cpu.interruptStack.toNat + StackSize

end Traps
