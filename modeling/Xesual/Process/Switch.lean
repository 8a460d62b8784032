import Xesual.Library.Execution
import Xesual.PhysicalMemory.Basic
import Xesual.Traps.Frames

-- Kernel contexts: how `Pause` switches between them, and how `allocateProcess` builds the context of a process that
-- has not run yet (`ProcessManagement.cpp`).

namespace ProcessManagement.Switch

open Assembly (Instruction State)
open Memory (region)
open PhysicalMemoryManagement (PageSize)
open Traps (InterruptRegisters Register Registers)

-- The fields of a record, in the order of their declaration.
def KernelContext : List Register :=
  [.rbx, .rbp, .r12, .r13, .r14, .r15, .rip]

section Pause

-- `Pause`, with its arguments in `rdi` and `rsi`.
def pauseCode : List (Instruction Register) :=
  [Register.r15, .r14, .r13, .r12, .rbp, .rbx].map (fun r => Instruction.push (.register r)) ++
  [.store .rsp .rdi 0, .load (.register .rsi) .rsp] ++
  [Register.rbx, .rbp, .r12, .r13, .r14, .r15].map Instruction.pop ++
  [.pop .rip]

-- The state at the beginning of `Pause`, when it is called in state `s`.
def callPause (yieldFrom yieldTo returnAddress : BitVec 64) (s : State Register) : State Register :=
  ((s.set .rdi yieldFrom).set .rsi yieldTo).push returnAddress

def pause (yieldFrom yieldTo returnAddress : BitVec 64) (s : State Register) : State Register :=
  (callPause yieldFrom yieldTo returnAddress s).run pauseCode

-- The registers that a call in state `s` has to return with, as far as they have to be preserved.
def continuation (s : State Register) (returnAddress : BitVec 64) : Registers :=
  Function.update s.registers .rip returnAddress

-- The registers that are preserved by a call, as well as the stack pointer and the return address.
def preservedRegisters : List Register :=
  [.rbx, .rbp, .r12, .r13, .r14, .r15, .rsp, .rip]

end Pause

section Contexts

-- Every context has its own stack, and a variable to which `Pause` saves a pointer to its `KernelContext`.
structure Layout (ι : Type) where
  stack          : ι → Set (BitVec 64)
  task           : ι → BitVec 64
  stack_disjoint : ∀ {i j}, i ≠ j → Disjoint (stack i) (stack j)
  task_disjoint  : ∀ {i j}, i ≠ j → Disjoint (region (task i) 8) (region (task j) 8)
  task_stack     : ∀ {i j}, Disjoint (region (task i) 8) (stack j)

-- For every context that is suspended, `saved` remembers what it has to be resumed with.
structure Machine (ι : Type) where
  cpu     : State Register
  running : ι
  saved   : ι → Option Registers

-- The running context executes code of its own after which the state is `s`, it prepares another context to be
-- switched to for the first time, or it switches to another context by a call of `Pause`.
inductive Action (ι : Type)
  | work (s : State Register)
  | create (i : ι)
  | pause (j : ι) (returnAddress : BitVec 64)

variable {ι : Type} [DecidableEq ι]

namespace Machine

def start (cpu : State Register) (i : ι) : Machine ι where
  cpu     := cpu
  running := i
  saved _ := none

-- The value of the variable of a context.
def task (L : Layout ι) (σ : Machine ι) (i : ι) : BitVec 64 :=
  σ.cpu.memory.load (L.task i)

-- A field of the `KernelContext` that this variable points to.
def field (L : Layout ι) (σ : Machine ι) (i : ι) (r : Register) : BitVec 64 :=
  σ.cpu.memory.field KernelContext (σ.task L i) r

def step (L : Layout ι) (σ : Machine ι) : Action ι → Option (Machine ι)
  | .work s   => some { σ with cpu := s }
  | .create i =>
    let registers := Function.update (σ.field L i) .rsp (σ.task L i + 56)
    some { σ with saved := Function.update σ.saved i (some registers) }
  | .pause j returnAddress =>
    some {
      cpu     := pause (L.task σ.running) (σ.task L j) returnAddress σ.cpu
      running := j
      saved   := Function.update
        (Function.update σ.saved σ.running (some (continuation σ.cpu returnAddress))) j none
    }

-- The stack of a suspended context and its variable are not written to by other contexts. Only contexts that are
-- suspended are switched to, and there is room on the stack for the words that are pushed by the call and by `Pause`.
def Allowed (L : Layout ι) (σ : Machine ι) : Action ι → Prop
  | .work s    => ∀ i, σ.saved i ≠ none → Set.EqOn s.memory σ.cpu.memory (L.stack i ∪ region (L.task i) 8)
  | .create i  => i ≠ σ.running ∧ σ.saved i = none ∧ region (σ.task L i) 56 ⊆ L.stack i
  | .pause j _ => σ.saved j ≠ none ∧ region (σ.cpu.registers .rsp - 56) 56 ⊆ L.stack σ.running

end Machine
end Contexts

section FirstDispatch

-- The fields of a process that are set by `allocateProcess` when it builds the stack, and the memory thereafter.
structure Image where
  memory     : Memory
  trapFrame  : BitVec 64
  kernelTask : BitVec 64

-- `allocateProcess` from line 187 on. The addresses of `TrapRet` and `ProcessEntryPoint` are determined when the
-- kernel is linked.
def buildStack (trapRet processEntryPoint kernelStack : BitVec 64) (memory : Memory) : Image :=
  let stackPointer := kernelStack + .ofNat 64 PageSize
  let stackPointer := stackPointer - .ofNat 64 (8 * InterruptRegisters.length)
  let trapFrame := stackPointer
  let stackPointer := stackPointer - 8
  let memory := memory.store stackPointer trapRet
  let stackPointer := stackPointer - .ofNat 64 (8 * KernelContext.length)
  let kernelTask := stackPointer
  let memory := memory.fill kernelTask 0 (8 * KernelContext.length)
  let memory := memory.store (kernelTask + 8 * .ofNat 64 (KernelContext.idxOf .rip)) processEntryPoint
  { memory, trapFrame, kernelTask }

-- The scheduler can switch to the process in state `s`: the page with its stack has only been written to by the owner
-- of the process, who may have changed the trap frame, and the scheduler has its own stack and variable.
structure Image.Ready (image : Image) (kernelStack schedulerTask : BitVec 64) (s : State Register) : Prop where
  memory : Set.EqOn s.memory image.memory
    (region kernelStack PageSize \ region image.trapFrame (8 * InterruptRegisters.length))
  stack  : Disjoint (region (s.registers .rsp - 56) 56) (region kernelStack PageSize)
  task   : Disjoint (region schedulerTask 8) (region kernelStack PageSize)

-- What is known about `ProcessEntryPoint` when it is called in state `s` and about to return in state `s'`: it leaves
-- the stack pointer where it was, and the words from its return address on as they were.
structure Balanced (s s' : State Register) : Prop where
  rsp    : s'.registers .rsp = s.registers .rsp
  memory : Set.EqOn s'.memory s.memory (region (s.registers .rsp) (8 + 8 * InterruptRegisters.length))

-- The addresses of the words that are read from the first switch to a process until it runs in user mode, apart from
-- those that are read by `ProcessEntryPoint`. The states are those at the beginning of `Pause`, when
-- `ProcessEntryPoint` returns, and at the beginning of `TrapRet`.
def dispatchReads (s₁ s₂ s₃ : State Register) : List (BitVec 64) :=
  s₁.reads pauseCode ++ s₂.reads [.pop .rip] ++ s₃.reads Traps.trapRetCode ++
    (List.range Traps.interruptFrame.length).map fun i =>
      (s₃.run Traps.trapRetCode).registers .rsp + 8 * .ofNat 64 i

end FirstDispatch
end ProcessManagement.Switch
