import Xesual.Library.Execution
import Xesual.PhysicalMemory.Locking
import Xesual.Printf.Directives

-- Calls of `logfn` that are made concurrently. They share the serial line and `logLock`. What is executed by the
-- handler of an interrupt counts as another processor, which may never get the lock.

namespace Printf.Log

structure Message (δ : Type) where
  format : List Byte
  args   : Arguments δ

variable {ι δ : Type}

-- The bytes that are sent by `logfn`, one after the other.
def Message.bytes (env : Environment δ) (m : Message δ) : Option (List Byte) :=
  (logfn env m.format m.args []).map Prod.fst

-- The position of a processor in `logfn`:
-- 1. `acquiring`: it is in the loop of `Spinlock::acquire`, called by `lockLog`.
-- 2. `sending`: it has yet to send the bytes `pending`. If there are none, then it executes the store of
--    `Spinlock::release`, called by `unlockLog`.
inductive Pc (δ : Type)
  | idle
  | acquiring (m : Message δ)
  | sending (m : Message δ) (pending : List Byte)

-- The message that has not been finished.
def Pc.current : Pc δ → List (Message δ)
  | idle        => []
  | acquiring m => [m]
  | sending m _ => [m]

-- The lock lies at the beginning of `bytes`.
structure Machine (ι δ : Type) where
  bytes : Bytes
  port  : List Byte
  pc    : ι → Pc δ

inductive Action (ι δ : Type)
  | logfn (i : ι) (m : Message δ)
  | proceed (i : ι)

def logLock : Nat := 0

-- The state after `initLogLock`.
def Machine.start (bytes : Bytes) : Machine ι δ where
  bytes := Spinlock.init bytes logLock
  port  := []
  pc _  := .idle

section Step

variable [DecidableEq ι]

def Machine.goto (σ : Machine ι δ) (i : ι) (pc : Pc δ) : Machine ι δ :=
  { σ with pc := Function.update σ.pc i pc }

-- There is no step if the message has too few arguments, or contains something that can not be read.
def Machine.step (env : Environment δ) (σ : Machine ι δ) : Action ι δ → Option (Machine ι δ)
  | .logfn i m =>
    match σ.pc i with
    | .idle => some (σ.goto i (.acquiring m))
    | _     => none
  | .proceed i =>
    match σ.pc i with
    | .idle => none
    | .acquiring m =>
      let (bytes, acquired) := Spinlock.testAndSet σ.bytes logLock
      if acquired then (m.bytes env).map fun pending => { σ with bytes }.goto i (.sending m pending)
      else some { σ with bytes }
    | .sending m (b :: pending) => some ({ σ with port := σ.port ++ [b] }.goto i (.sending m pending))
    | .sending _ []             => some ({ σ with bytes := Spinlock.release σ.bytes logLock }.goto i .idle)

-- The calls of a processor, in the order in which they are made.
def calls (i : ι) (as : List (Action ι δ)) : List (Message δ) :=
  as.filterMap fun
    | .logfn j m => if j = i then some m else none
    | .proceed _ => none

end Step

def Machine.Sending (σ : Machine ι δ) (i : ι) : Prop :=
  ∃ m pending, σ.pc i = .sending m pending

end Printf.Log
