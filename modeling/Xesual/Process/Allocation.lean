import Xesual.Process.Machine
import Xesual.VirtualMemory.Basic

-- `allocateProcess` and `freeProcess` with all fields of the process table, and with the pages that are taken from the
-- allocator. The contents of the kernel stacks are left out.

namespace ProcessManagement.Allocation

open VirtualMemoryManagement (Platform PageTableRef shallowCopy allocatePage)

structure ProcessInfo where
  pageTable   : PageTableRef
  state       : ProcessState
  kernelStack : BitVec 64
  kernelTask  : BitVec 64
  trapFrame   : BitVec 64
  deriving DecidableEq

-- The process table and the memory, the pages that have been taken from the allocator and not given back, and the
-- pages that have been written to by the `memcpy` in `shallowCopy`.
structure System where
  table  : Slot → ProcessInfo
  memory : VirtualMemoryManagement.State
  taken  : List (BitVec 64)
  copied : List (BitVec 64)

namespace System

-- The process table is cleared by `init`.
def start (memory : VirtualMemoryManagement.State) : System where
  table _ := ⟨0, .unused, 0, 0, 0⟩
  memory  := memory
  taken   := []
  copied  := []

def modify (σ : System) (p : Slot) (f : ProcessInfo → ProcessInfo) : System :=
  { σ with table := Function.update σ.table p (f (σ.table p)) }

-- The result of a call of `allocatePage`.
def take (σ : System) (page : BitVec 64) : System :=
  { σ with taken := if page = 0 then σ.taken else page :: σ.taken }

-- The first slot that is not in use.
def findUnused (σ : System) : Option Slot :=
  (List.finRange 64).find? (fun p => (σ.table p).state = .unused)

variable (π : Platform) (KernelPageTable : PageTableRef) (σ : System)

-- Lines 164-179: the part of `allocateProcess` that is executed under the lock.
def scan : System × Option Slot :=
  match σ.findUnused with
  | none   => (σ, none)
  | some p =>
    let (memory, pageTable) := shallowCopy π σ.memory KernelPageTable
    let σ := { σ with memory, copied := pageTable :: σ.copied }.take pageTable
    (σ.modify p ({ · with pageTable, state := .fresh }), some p)

-- The statements of `allocateProcess` that assign to a field of the slot after the lock has been released (lines 182,
-- 184, 191 and 197).
def setKernelStack (p : Slot) : System :=
  let (memory, kernelStack) := allocatePage π σ.memory
  ({ σ with memory }.take kernelStack).modify p ({ · with kernelStack })

def abandon (p : Slot) : System :=
  σ.modify p ({ · with state := .unused })

def setTrapFrame (p : Slot) (stackPointer : BitVec 64) : System :=
  σ.modify p ({ · with trapFrame := stackPointer })

def setKernelTask (p : Slot) (stackPointer : BitVec 64) : System :=
  σ.modify p ({ · with kernelTask := stackPointer })

def allocateProcess : System × Option Slot :=
  let (σ, p) := σ.scan π KernelPageTable
  match p with
  | none   => (σ, none)
  | some p =>
    let σ := σ.setKernelStack π p
    if (σ.table p).kernelStack = 0 then
      (σ.abandon p, none)
    else
      let stackPointer := (σ.table p).kernelStack + 4096 - 22 * 8
      let σ := σ.setTrapFrame p stackPointer
      let stackPointer := stackPointer - 8 - 7 * 8
      (σ.setKernelTask p stackPointer, some p)

def freeProcess (p : Slot) : System :=
  let σ := σ.modify p ({ · with state := .unused })
  { σ with taken := σ.taken.erase (σ.table p).kernelStack }

end System

section Accounting

inductive Call
  | allocateProcess
  | freeProcess (p : Slot)

variable (π : Platform) (KernelPageTable : PageTableRef) (σ : System)

-- One call after the other. A slot is only freed while it is in use.
def System.step : Call → Option System
  | .allocateProcess => some (σ.allocateProcess π KernelPageTable).fst
  | .freeProcess p   => if (σ.table p).state = .unused then none else some (σ.freeProcess p)

-- The pages that belong to a slot.
def System.pages (p : Slot) : List (BitVec 64) :=
  if (σ.table p).state = .unused then [] else [(σ.table p).pageTable, (σ.table p).kernelStack]

def System.Balanced : Prop :=
  σ.taken.Perm <| (List.finRange 64).flatMap σ.pages

structure AllocateAccounted (σ' : System) (result : Option Slot) : Prop where
  balanced     : σ'.Balanced
  nullptr      : result = none → σ'.taken = σ.taken ∧ ∀ p, (σ'.table p).state = (σ.table p).state
  reported     : σ.findUnused ≠ none → π.page σ.memory.allocated = 0 → result = none
  dereferenced : 0 ∉ σ'.copied

structure FreeAccounted (p : Slot) (σ' : System) : Prop where
  balanced : σ'.Balanced
  freed    : σ.taken.Perm ((σ.table p).pageTable :: (σ.table p).kernelStack :: σ'.taken)

def System.Accounted : Call → Prop
  | .allocateProcess =>
    AllocateAccounted π σ (σ.allocateProcess π KernelPageTable).fst (σ.allocateProcess π KernelPageTable).snd
  | .freeProcess p   => FreeAccounted σ p (σ.freeProcess p)

-- The call does not free a slot, and it gets both pages if it finds an unused slot.
def System.Served : Call → Prop
  | .allocateProcess =>
    σ.findUnused = none ∨ π.page σ.memory.allocated ≠ 0 ∧ π.page (σ.memory.allocated + 1) ≠ 0
  | .freeProcess _   => False

end Accounting

-- The statement of `allocateProcess` or `freeProcess` that a processor executes next. The numbers are lines of
-- `ProcessManagement.cpp`. A part that is executed under the lock is a single step.
inductive Pc
  | idle
  | scanning                                           -- 162-180
  | allocating (p : Slot)                              -- 182
  | checking   (p : Slot)                              -- 183
  | abandoning (p : Slot)                              -- 184
  | pointing   (p : Slot)                              -- 188-190
  | framing    (p : Slot) (stackPointer : BitVec 64)   -- 191
  | tasking    (p : Slot) (stackPointer : BitVec 64)   -- 193-199
  | returning  (p : Option Slot)                       -- 174, 185, 201
  | freeing    (p : Slot)                              -- 152-157
  deriving DecidableEq

-- The progress of a processor, and a record of its current call of `allocateProcess`: the states that it has seen in
-- its scan, the slot that it has reserved, and the result of the allocation of its kernel stack.
structure CPUState where
  pc       : Pc
  seen     : Slot → ProcessState
  reserved : Option Slot
  stack    : Option (BitVec 64)

-- The slots in `returned` have been returned by `allocateProcess` and have not been freed since then. They are in
-- `owned` as long as their owners have not called `freeProcess`.
structure Machine (ι : Type) where
  system   : System
  cpu      : ι → CPUState
  returned : List Slot
  owned    : List Slot

-- The owner of a slot can change its state, as it is done by `createFirstProcess` and `schedule`.
inductive Action (ι : Type)
  | allocateProcess (i : ι)
  | freeProcess     (i : ι) (p : Slot)
  | mark            (p : Slot) (state : ProcessState)
  | proceed         (i : ι)

namespace Machine

variable {ι : Type} [DecidableEq ι]

def start (memory : VirtualMemoryManagement.State) : Machine ι where
  system   := .start memory
  cpu _    := ⟨.idle, fun _ => .unused, none, none⟩
  returned := []
  owned    := []

def setCPU (σ : Machine ι) (i : ι) (c : CPUState) : Machine ι :=
  { σ with cpu := Function.update σ.cpu i c }

def goto (σ : Machine ι) (i : ι) (pc : Pc) : Machine ι :=
  σ.setCPU i { σ.cpu i with pc }

variable (π : Platform) (KernelPageTable : PageTableRef) (σ : Machine ι)

def proceed (i : ι) : Option (Machine ι) :=
  match (σ.cpu i).pc with
  | .idle         => none
  | .scanning     =>
    let (system, p) := σ.system.scan π KernelPageTable
    let seen q := (σ.system.table q).state
    let pc := match p with
      | some p => .allocating p
      | none   => .returning none
    some ({ σ with system }.setCPU i { σ.cpu i with pc, seen, reserved := p })
  | .allocating p =>
    let system := σ.system.setKernelStack π p
    let stack := some (allocatePage π σ.system.memory).snd
    some ({ σ with system }.setCPU i { σ.cpu i with pc := .checking p, stack })
  | .checking p   =>
    some (σ.goto i (if (σ.system.table p).kernelStack = 0 then .abandoning p else .pointing p))
  | .abandoning p =>
    some ({ σ with system := σ.system.abandon p }.goto i (.returning none))
  | .pointing p   =>
    some (σ.goto i (.framing p ((σ.system.table p).kernelStack + 4096 - 22 * 8)))
  | .framing p stackPointer =>
    some ({ σ with system := σ.system.setTrapFrame p stackPointer }.goto i (.tasking p (stackPointer - 8 - 7 * 8)))
  | .tasking p stackPointer =>
    some ({ σ with system := σ.system.setKernelTask p stackPointer }.goto i (.returning (some p)))
  | .returning none     => some (σ.goto i .idle)
  | .returning (some p) => some ({ σ with returned := p :: σ.returned, owned := p :: σ.owned }.goto i .idle)
  | .freeing p    =>
    some ({ σ with system := σ.system.freeProcess p, returned := σ.returned.erase p }.goto i .idle)

def step : Action ι → Option (Machine ι)
  | .allocateProcess i =>
    if (σ.cpu i).pc = .idle then
      some (σ.setCPU i { σ.cpu i with pc := .scanning, reserved := none, stack := none })
    else
      none
  | .freeProcess i p =>
    if (σ.cpu i).pc = .idle ∧ p ∈ σ.owned then
      some ({ σ with owned := σ.owned.erase p }.setCPU i { σ.cpu i with pc := .freeing p, reserved := none })
    else
      none
  | .mark p state =>
    if p ∈ σ.owned ∧ state ≠ .unused then
      some { σ with system := σ.system.modify p ({ · with state }) }
    else
      none
  | .proceed i => σ.proceed π KernelPageTable i

-- A slot is not returned again before it is freed, and the null pointer is only returned if all slots have been in use
-- or if there is no kernel stack.
structure Exclusive : Prop where
  returned : σ.returned.Nodup
  nullptr  : ∀ i, (σ.cpu i).pc = .returning none → (∀ p, (σ.cpu i).seen p ≠ .unused) ∨ (σ.cpu i).stack = some 0

-- The call only changes the slot that it has reserved in its scan, or the one that it frees.
def Local (σ' : Machine ι) : Action ι → Prop
  | .mark ..   => True
  | .proceed i => ∀ p, σ'.system.table p ≠ σ.system.table p →
    (σ'.cpu i).reserved = some p ∨ (σ.cpu i).pc = .freeing p
  | _          => σ'.system.table = σ.system.table

end Machine
end ProcessManagement.Allocation
