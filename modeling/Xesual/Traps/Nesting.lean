import Xesual.Traps.Interrupts

-- Nested calls of `pushCLI` and `popCLI` on one processor, between any two steps of which interrupts can arrive. The
-- pairs in `Spinlock::acquire` and `Spinlock::release` are among them: what is done in between does not concern the
-- interrupt flag.

namespace Interrupts.Nesting

-- The value of an `int32_t` after an operation.
def wrap (n : Int) : Int :=
  n.bmod (2 ^ 32)

structure Processor where
  interruptFlag         : Bool
  cliCount              : Int
  wereInterruptsEnabled : Bool
  deriving DecidableEq

-- The code before an interrupt, or that of its handler: what is left to be executed of `pushCLI` or `popCLI`, and the
-- local variable of `pushCLI`. For each call of `pushCLI` without a matching one of `popCLI` so far, `opened` remembers
-- the interrupt flag just before that call.
structure Context where
  flags  : Bool
  code   : List Op
  opened : List Bool
  deriving DecidableEq

-- What has been interrupted, with the interrupt flag that is restored when the handler returns.
structure Frame where
  context       : Context
  interruptFlag : Bool
  deriving DecidableEq

structure Machine where
  cpu         : Processor
  context     : Context
  interrupted : List Frame
  deriving DecidableEq

def pushCLI : List Op :=
  [.readFlags, .cli, .saveFlags, .increment]

def popCLI : List Op :=
  [.decrement, .restoreFlags]

-- The processor calls `pushCLI` or `popCLI`, it executes the next operation of the function that has been called, it
-- receives an interrupt, or it returns from the handler of an interrupt.
inductive Action
  | pushCLI
  | popCLI
  | proceed
  | interrupt
  | resume

def Processor.execute (c : Processor) (flags : Bool) : Op → Processor
  | .cli          => { c with interruptFlag := false }
  | .saveFlags    => { c with wereInterruptsEnabled := if c.cliCount = 0 then flags else c.wereInterruptsEnabled }
  | .increment    => { c with cliCount := wrap (c.cliCount + 1) }
  | .decrement    => { c with cliCount := wrap (c.cliCount - 1) }
  | .restoreFlags => { c with interruptFlag := c.interruptFlag || (c.cliCount = 0 && c.wereInterruptsEnabled) }
  | _             => c

def Context.execute (x : Context) (interruptFlag : Bool) : Op → Context
  | .readFlags    => { x with flags := interruptFlag }
  | .restoreFlags => { x with opened := x.opened.tail }
  | _             => x

namespace Machine

def start (interruptFlag : Bool) (cliCount : Int) (wereInterruptsEnabled : Bool) : Machine where
  cpu         := ⟨interruptFlag, cliCount, wereInterruptsEnabled⟩
  context     := ⟨false, [], []⟩
  interrupted := []

def step (σ : Machine) : Action → Option Machine
  | .pushCLI =>
    match σ.context.code with
    | []     =>
      let opened := σ.cpu.interruptFlag :: σ.context.opened
      some { σ with context := { σ.context with code := Nesting.pushCLI, opened } }
    | _ :: _ => none
  | .popCLI =>
    match σ.context.code, σ.context.opened with
    | [], _ :: _ => some { σ with context := { σ.context with code := Nesting.popCLI } }
    | _, _       => none
  | .proceed =>
    match σ.context.code with
    | []        => none
    | o :: code =>
      some { σ with
        cpu     := σ.cpu.execute σ.context.flags o
        context := { σ.context.execute σ.cpu.interruptFlag o with code } }
  | .interrupt =>
    if σ.cpu.interruptFlag then
      some {
        cpu         := { σ.cpu with interruptFlag := false }
        context     := ⟨false, [], []⟩
        interrupted := ⟨σ.context, σ.cpu.interruptFlag⟩ :: σ.interrupted
      }
    else
      none
  | .resume =>
    match σ.interrupted, σ.context.code, σ.context.opened with
    | frame :: interrupted, [], [] =>
      some { cpu := { σ.cpu with interruptFlag := frame.interruptFlag }, context := frame.context, interrupted }
    | _, _, _ => none

-- The processor does not increment the greatest value of the counter.
def InRange (σ : Machine) : Action → Prop
  | .proceed => σ.context.code.head? = some .increment → σ.cpu.cliCount ≠ 2 ^ 31 - 1
  | _        => True

instance {σ : Machine} : ∀ {a : Action}, Decidable (σ.InRange a)
  | .proceed   => inferInstanceAs (Decidable (_ → _))
  | .pushCLI   => isTrue trivial
  | .popCLI    => isTrue trivial
  | .interrupt => isTrue trivial
  | .resume    => isTrue trivial

-- The counter has not dropped below its initial value. While it is positive, interrupts are disabled outside of
-- `pushCLI` and `popCLI`. If the processor is at the end of `popCLI`, its last operation leaves the interrupt flag as
-- it was before the matching call of `pushCLI`.
structure Proper (cliCount : Int) (σ : Machine) : Prop where
  count    : cliCount ≤ σ.cpu.cliCount
  disabled : σ.context.code = [] → 0 < σ.cpu.cliCount → σ.cpu.interruptFlag = false
  restored : σ.context.code = [.restoreFlags] → ∀ σ', σ.step .proceed = some σ' →
    some σ'.cpu.interruptFlag = σ.context.opened.head?

end Machine
end Interrupts.Nesting
