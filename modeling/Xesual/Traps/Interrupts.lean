import Xesual.Library.Contracts
import Xesual.Library.Execution
import Xesual.Traps.Entry

-- A processor that executes the code of the kernel and receives interrupts. Only those parts of the code are
-- given that are concerned with locks or with the interrupt flag.

namespace Interrupts

-- `logLock`, the lock of the physical memory management, and `ProcessTableSpinlock`.
inductive Lock
  | log
  | memory
  | processTable
  deriving DecidableEq

inductive Op
  -- `pushCLI` and `popCLI`
  | readFlags               -- `auto flags = eflags()`
  | cli
  | saveFlags               -- `if (cliCount == 0) wereInterruptsEnabled = flags & 0x200`
  | increment               -- `cliCount++`
  | decrement               -- `cliCount--`
  | restoreFlags            -- `if (cliCount == 0 && wereInterruptsEnabled) sti`
  | sti
  -- an iteration of the loop of `Spinlock::acquire`, and the store of `Spinlock::release`
  | testAndSet (l : Lock)
  | clear (l : Lock)
  -- `iretq` or `sysretq`, which continues what has been interrupted
  | resume
  -- `TrapRet` with the trap frame of a process, and the process itself
  | enterUser
  | user
  -- the call of `Pause` in `enterSchedulerFromProcess`
  | enterScheduler
  | halt
  deriving DecidableEq

inductive Function
  | pushCLI
  | popCLI
  | acquire (l : Lock)
  | release (l : Lock)
  | logfn
  | lockMemory              -- `if (Memory.usingLock) Memory.lock.acquire()`
  | unlockMemory            -- `if (Memory.usingLock) Memory.lock.release()`
  | freePages
  | allocatePages
  | shallowCopy
  | map
  | allocateProcess
  | takeSlot                -- the part of `allocateProcess` after the lock has been acquired
  | checkStack              -- the check of `kernelStack` in `allocateProcess`
  | createFirstProcess
  | sharedMain
  | checkInterruptStack     -- the check of `interruptStack` in `SharedMain`, and what follows
  | scan                    -- the call of `PCI::scan` in `SharedMain`, and what follows
  | schedule                -- an iteration of the outer loop of `schedule`
  | loop                    -- the inner loop of `schedule`
  | pause                   -- the call of `Pause` in `schedule`
  | processEntryPoint
  | freeProcess
  | exitCurrentProcess
  | panic
  | trapHandler (kernelCode : Bool) (interruptNumber : Nat)
  deriving DecidableEq

inductive Instruction
  | op (o : Op)
  | call (f : Function)
  deriving DecidableEq

-- The code of a function. Where the code depends on something that is not part of the model, both possibilities
-- are given by `choice`.
def Function.body (usingLock choice : Bool) : Function → List Instruction
  | .pushCLI             => [.op .readFlags, .op .cli, .op .saveFlags, .op .increment]
  | .popCLI              => [.op .decrement, .op .restoreFlags]
  | .acquire l           => [.call .pushCLI, .op (.testAndSet l), .call .popCLI]
  | .release l           => [.call .pushCLI, .op (.clear l), .call .popCLI]
  | .logfn               => [.call (.acquire .log), .call (.release .log)]
  | .lockMemory          => if usingLock then [.call (.acquire .memory)] else []
  | .unlockMemory        => if usingLock then [.call (.release .memory)] else []
  | .freePages           => [.call .lockMemory, .call .unlockMemory]
  | .allocatePages       => [.call .lockMemory, .call .unlockMemory]
  | .shallowCopy         => [.call .allocatePages]
  -- A page is allocated for each table that is missing.
  | .map                 => if choice then [.call .allocatePages, .call .map] else []
  | .allocateProcess     => [.call (.acquire .processTable), .call .takeSlot]
  -- `createFirstProcess` does not check whether it has got a process, so it allocates a page before it accesses
  -- the null pointer.
  | .takeSlot            =>
    if choice then
      [.call .shallowCopy, .call (.release .processTable), .call .allocatePages, .call .checkStack]
    else
      [.call (.release .processTable), .call .allocatePages, .op .halt]
  | .checkStack          => if choice then [] else [.call .allocatePages, .op .halt]
  | .createFirstProcess  =>
    [.call .allocateProcess, .call .allocatePages, .call .map, .call (.acquire .processTable),
      .call (.release .processTable)]
  | .sharedMain          => [.call .logfn, .call .allocatePages, .call .checkInterruptStack]
  | .checkInterruptStack => if choice then [.call .popCLI, .call .scan] else [.call .logfn, .op .halt]
  -- The callback writes to the log.
  | .scan                => if choice then [.call .logfn, .call .scan] else [.call .logfn, .call .schedule]
  | .schedule            => [.op .sti, .call (.acquire .processTable), .call .loop]
  -- The loop either finds a runnable slot or ends.
  | .loop                =>
    if choice then
      [.call .logfn, .call .logfn, .call .pause]
    else
      [.call (.release .processTable), .call .schedule]
  -- The process starts at `ProcessEntryPoint`, unless the context has been saved by `enterSchedulerFromProcess`. Then
  -- it returns through `TrapHandler`.
  | .pause               => if choice then [.call .processEntryPoint] else [.op .enterUser]
  | .processEntryPoint   => [.call (.release .processTable), .op .enterUser]
  | .freeProcess         => [.call (.acquire .processTable), .call .freePages, .call (.release .processTable)]
  | .exitCurrentProcess  => [.call .freeProcess, .op .enterScheduler]
  -- One line and five lines by `dumpRegisters`.
  | .panic               => List.replicate 6 (.call .logfn) ++ [.op .cli, .op .halt]
  -- `currentProcess` is not the null pointer while a process is executed, so that `kernelCode` decides.
  | .trapHandler kernelCode interruptNumber =>
    match interruptNumber with
    | 128     => []
    | 32      => []
    | 8       => [.call .panic]
    | 13 | 14 => if kernelCode then [.call .panic] else [.call .exitCurrentProcess]
    | _       => [.call .logfn]

-- The handler of an interrupt. For the clock interrupt, the number is taken from memory unless the code that has
-- been interrupted belongs to the kernel. An interrupt without a handler causes a general protection fault.
def handler (kernelCode : Bool) (word number : Nat) : List Instruction :=
  match Traps.gate number with
  | some (.noErrorCode number)   => [.call (.trapHandler kernelCode number), .op .resume]
  | some (.withErrorCode number) => [.call (.trapHandler kernelCode number), .op .resume]
  | some .clockInterrupt         =>
    if kernelCode then [.op .resume] else [.call (.trapHandler kernelCode word), .op .resume]
  | some .badTLBInterrupt        => [.op .resume]
  | some .noOpInterrupt          => [.op .resume]
  | some .haltInterrupt          => [.op .halt]
  | none                         => [.call (.trapHandler kernelCode 13), .op .resume]

-- `flags` is the local variable of `pushCLI`, and `holds` tells which locks the processor has acquired and not
-- released since.
structure CPUState where
  flags                 : Bool
  interruptFlag         : Bool
  cliCount              : Int
  wereInterruptsEnabled : Bool
  holds                 : Lock → Bool

-- What has been interrupted, and what is restored of the state when it is continued.
structure Frame where
  code          : List Instruction
  flags         : Bool
  interruptFlag : Bool

structure Machine where
  cpu         : CPUState
  code        : List Instruction
  interrupted : List Frame
  held        : Lock → Bool
  usingLock   : Bool

-- The processor executes the next instruction, receives an interrupt from a device, or a process causes an
-- exception or executes `syscall`. Other processors can change the locks in any way. The handler of the clock
-- interrupt finds `word` in memory.
inductive Action
  | proceed (choice : Bool)
  | interrupt (number word : Nat)
  | exception (number : Nat)
  | syscall
  | others (held : Lock → Bool) (usingLock : Bool)

-- The effect of an operation on the processor. For `testAndSet` this is the last iteration of the loop.
def CPUState.execute (c : CPUState) : Op → CPUState
  | .readFlags    => { c with flags := c.interruptFlag }
  | .cli          => { c with interruptFlag := false }
  | .saveFlags    => { c with wereInterruptsEnabled := if c.cliCount = 0 then c.flags else c.wereInterruptsEnabled }
  | .increment    => { c with cliCount := c.cliCount + 1 }
  | .decrement    => { c with cliCount := c.cliCount - 1 }
  | .restoreFlags => { c with interruptFlag := c.interruptFlag || (c.cliCount = 0 && c.wereInterruptsEnabled) }
  | .sti          => { c with interruptFlag := true }
  | .testAndSet l => { c with holds := Function.update c.holds l true }
  | .clear l      => { c with holds := Function.update c.holds l false }
  -- The trap frame has been set up by `createFirstProcess` with `rflags = 0x200`.
  | .enterUser    => { c with interruptFlag := true }
  | _             => c

namespace Machine

-- The state in which the bootstrap processor calls `createFirstProcess`, and in which any processor calls
-- `SharedMain`. The boot loader starts the processors with a clear interrupt flag.
def start (bootstrap : Bool) (held : Lock → Bool) (usingLock : Bool) : Machine where
  cpu         := ⟨false, false, 1, false, fun _ => false⟩
  code        := if bootstrap then [.call .createFirstProcess, .call .sharedMain] else [.call .sharedMain]
  interrupted := []
  held        := held
  usingLock   := usingLock

def execute (σ : Machine) (next : List Instruction) : Op → Option Machine
  | .testAndSet l =>
    if σ.held l then
      some σ
    else
      some { σ with cpu := σ.cpu.execute (.testAndSet l), code := next, held := Function.update σ.held l true }
  -- The store has four bytes. In case of the physical memory management, `usingLock` is one of them.
  | .clear l      =>
    some { σ with
      cpu       := σ.cpu.execute (.clear l)
      code      := next
      held      := Function.update σ.held l false
      usingLock := σ.usingLock && l ≠ .memory }
  | .resume       =>
    match σ.interrupted with
    | frame :: interrupted =>
      let cpu := { σ.cpu with flags := frame.flags, interruptFlag := frame.interruptFlag }
      some { σ with cpu, code := frame.code, interrupted }
    | [] => none
  | .enterUser      => some { σ with cpu := σ.cpu.execute .enterUser, code := [.op .user] }
  | .enterScheduler => some { σ with code := [.call .loop], interrupted := [] }
  | .user | .halt   => none
  | o               => some { σ with cpu := σ.cpu.execute o, code := next }

def inUserMode (σ : Machine) : Bool :=
  match σ.code with
  | .op .user :: _ => true
  | _              => false

-- Enters the kernel. All handlers are installed as interrupt gates, which clear the interrupt flag. It is not changed
-- by `syscall` because the mask register is never set.
def enter (σ : Machine) (interruptFlag : Bool) (code : List Instruction) : Machine :=
  { σ with
    cpu         := { σ.cpu with interruptFlag }
    code        := code
    interrupted := ⟨σ.code, σ.cpu.flags, σ.cpu.interruptFlag⟩ :: σ.interrupted }

def step (σ : Machine) : Action → Option Machine
  | .proceed choice =>
    match σ.code with
    | []              => none
    | .op o :: next   => σ.execute next o
    | .call f :: next => some { σ with code := f.body σ.usingLock choice ++ next }
  | .interrupt number word =>
    if σ.cpu.interruptFlag ∧ 32 ≤ number ∧ number < 256 then
      some (σ.enter false (handler (!σ.inUserMode) word number))
    else
      none
  | .exception number =>
    if σ.inUserMode ∧ (number < 32 ∨ number = 128) then
      some (σ.enter false (handler false 0 number))
    else
      none
  | .syscall =>
    if σ.inUserMode then
      some (σ.enter σ.cpu.interruptFlag [.call .logfn, .op .resume])
    else
      none
  | .others held usingLock => some { σ with held, usingLock }

-- The interrupt flag is clear while a lock is held, and the processor does not wait for a lock that it holds
-- itself.
structure Safe (σ : Machine) : Prop where
  closed : ∀ l, σ.cpu.holds l → σ.cpu.interruptFlag = false
  free   : ∀ l next, σ.code = .op (.testAndSet l) :: next → σ.cpu.holds l = false

end Machine

-- `acquire` is called with interrupts disabled or between `pushCLI` and `popCLI`, and the physical memory management
-- does not keep its lock because `usingLock` has been cleared in the meantime.
def Function.Guarded (usingLock : Bool) (c : CPUState) : Function → Prop
  | .acquire _    => c.interruptFlag = false ∨ c.cliCount ≠ 0
  | .unlockMemory => usingLock ∨ c.holds .memory = false
  | _             => True

def Machine.Guarded (σ : Machine) : Action → Prop
  | .proceed _ =>
    match σ.code with
    | .call f :: _ => f.Guarded σ.usingLock σ.cpu
    | _            => True
  | _ => True

end Interrupts
