import Xesual.Library.Bytes
import Xesual.Library.Execution
import Xesual.PhysicalMemory.Basic

-- A spinlock consists of the field `held`, which has two bytes.
namespace Spinlock

def init (m : Bytes) (lock : Nat) : Bytes :=
  m.store lock 2 0

-- An iteration of the loop of `acquire`. It sets `held` in any case, and the result tells whether the
-- previous value was zero.
def testAndSet (m : Bytes) (lock : Nat) : Bytes × Bool :=
  (m.store lock 2 1, m.load lock 2 = 0)

-- The instruction `movl` stores four bytes.
def release (m : Bytes) (lock : Nat) : Bytes :=
  m.store lock 4 0

end Spinlock

-- Processors that call `freePages` and `allocatePages` concurrently, where the lock is given by its bytes.

namespace PhysicalMemoryManagement.Locking

-- The offsets of the fields of `Memory`. `freeList` lies at offset 8, so it is not affected by any of the
-- stores below.
def lock : Nat := 0
def usingLock : Nat := 2

def init (m : Bytes) : Bytes :=
  (Spinlock.init m lock).store usingLock 1 0

def thereIsNowMoreThanOneProcessor (m : Bytes) : Bytes :=
  m.store usingLock 1 1

inductive Call
  | freePages     (base numPages : Nat)
  | allocatePages (numPages : Nat)
  deriving DecidableEq

-- The position of a processor in `freePages` or `allocatePages`:
-- 1. `entering`: it executes the check of `usingLock` at the entry (line 48 or 96).
-- 2. `acquiring`: it is in the loop of `Spinlock::acquire`.
-- 3. `inside`: it executes the part that manipulates the free list.
-- 4. `leaving`: it executes the check of `usingLock` at the exit (line 57, 90, 113 or 120).
-- 5. `releasing`: it executes the store of `Spinlock::release`.
inductive Pc
  | idle
  | entering (call : Call)
  | acquiring (call : Call)
  | inside (call : Call)
  | leaving
  | releasing
  deriving DecidableEq

structure Machine (ι : Type) where
  bytes  : Bytes
  memory : State
  pc     : ι → Pc

inductive Action (ι : Type)
  | call    (i : ι) (c : Call)
  | proceed (i : ι)

variable {ι : Type} [DecidableEq ι]

namespace Machine

-- The state after `thereIsNowMoreThanOneProcessor`. The free list is the one that has been built so far.
def start (bytes : Bytes) (memory : State) : Machine ι where
  bytes  := thereIsNowMoreThanOneProcessor (init bytes)
  memory := memory
  pc _   := .idle

def usesLock (σ : Machine ι) : Bool :=
  σ.bytes.load usingLock 1 ≠ 0

def goto (σ : Machine ι) (i : ι) (pc : Pc) : Machine ι :=
  { σ with pc := Function.update σ.pc i pc }

-- The part of a call that manipulates the free list.
def execute (fuel : Nat) (memory : State) : Call → Option State
  | .freePages base numPages => freePages fuel memory base numPages
  | .allocatePages numPages  => (allocatePages fuel memory numPages).map (·.fst)

def step (fuel : Nat) (σ : Machine ι) : Action ι → Option (Machine ι)
  | .call i c =>
    match σ.pc i with
    | .idle => some (σ.goto i (.entering c))
    | _     => none
  | .proceed i =>
    match σ.pc i with
    | .idle => none
    | .entering c =>
      some (σ.goto i (if σ.usesLock then .acquiring c else .inside c))
    | .acquiring c =>
      let (bytes, acquired) := Spinlock.testAndSet σ.bytes lock
      some ({ σ with bytes }.goto i (if acquired then .inside c else .acquiring c))
    | .inside c =>
      (execute fuel σ.memory c).map fun memory => { σ with memory }.goto i .leaving
    | .leaving =>
      some (σ.goto i (if σ.usesLock then .releasing else .idle))
    | .releasing =>
      some ({ σ with bytes := Spinlock.release σ.bytes lock }.goto i .idle)

def Inside (σ : Machine ι) (i : ι) : Prop :=
  ∃ c, σ.pc i = .inside c

-- The lock is in use, and at most one processor manipulates the free list.
structure Locked (σ : Machine ι) : Prop where
  usesLock : σ.usesLock
  unique   : ∀ i j, σ.Inside i → σ.Inside j → i = j

-- The action is not the store of `Spinlock::release`.
def NotReleasing (σ : Machine ι) : Action ι → Prop
  | .call ..   => True
  | .proceed i => σ.pc i ≠ .releasing

end Machine
end PhysicalMemoryManagement.Locking
