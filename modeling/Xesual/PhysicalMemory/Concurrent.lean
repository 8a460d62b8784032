import Xesual.Library.Execution
import Xesual.PhysicalMemory.FreeList

-- Processors that call `allocatePages` concurrently while `Memory.usingLock` is set. The lock is an ideal
-- one: it is held by at most one processor, which therefore executes the statements between `acquire` and
-- `release` as a single step. The expression that is returned is evaluated thereafter, in a step of its own.

namespace PhysicalMemoryManagement

-- The chunk `c` is the first one of the free list with at least `n` pages.
def State.FirstFit (s : State) (n c : Nat) : Prop :=
  ∃ pre post, Linked.Chain s.next 0 s.freeList (pre ++ c :: post) ∧ (∀ d ∈ pre, s.numPages d < n) ∧
    n ≤ s.numPages c

namespace Concurrent

-- The statement of `allocatePages` that is executed next. The null pointer stands for the chunk if there is
-- none in which the request fits.
inductive Pc
  | idle
  | acquiring (numPages : Nat)
  | searching (numPages : Nat)
  | releasing (numPages chunk : Nat)
  | returning (numPages chunk : Nat)
  deriving DecidableEq

-- The processors are named by `ι`. The ranges in `returned` are the results of the successful calls.
structure Machine (ι : Type) where
  memory   : State
  lock     : Option ι
  pc       : ι → Pc
  returned : List Range

inductive Action (ι : Type)
  | call    (i : ι) (numPages : Nat)
  | proceed (i : ι)

variable {ι : Type} [DecidableEq ι]

namespace Machine

def start (memory : State) : Machine ι where
  memory   := memory
  lock     := none
  pc _     := .idle
  returned := []

def goto (σ : Machine ι) (i : ι) (pc : Pc) : Machine ι :=
  { σ with pc := Function.update σ.pc i pc }

def step (fuel : Nat) (σ : Machine ι) : Action ι → Option (Machine ι)
  | .call i numPages =>
    match σ.pc i with
    | .idle => if 1 ≤ numPages then some (σ.goto i (.acquiring numPages)) else none
    | _     => none
  | .proceed i =>
    match σ.pc i with
    | .idle => none
    | .acquiring numPages =>
      if σ.lock.isNone then some ({ σ with lock := some i }.goto i (.searching numPages)) else none
    | .searching numPages =>
      (findChunk σ.memory numPages fuel σ.memory.freeList).map fun chunk =>
        let memory := if chunk = 0 then σ.memory else σ.memory.take chunk numPages
        { σ with memory }.goto i (.releasing numPages chunk)
    | .releasing numPages chunk =>
      some ({ σ with lock := none }.goto i (.returning numPages chunk))
    | .returning numPages chunk =>
      let range := ⟨σ.memory.returnAddress chunk, numPages⟩
      let returned := if chunk = 0 then σ.returned else range :: σ.returned
      some ({ σ with returned }.goto i .idle)

-- The ranges that have been returned are disjoint from one another and from the free list.
structure Exclusive (σ : Machine ι) : Prop where
  returned : σ.returned.Pairwise (fun r r' => Disjoint r.pages r'.pages)
  free     : ∀ r ∈ σ.returned, Disjoint r.pages σ.memory.covered

-- The condition under which concurrent calls do not interfere: a request is not served from a chunk for
-- which another processor still has to evaluate its return address.
def Apart (σ : Machine ι) : Action ι → Prop
  | .call ..   => True
  | .proceed i => ∀ n, σ.pc i = .searching n → ∀ j m c, σ.pc j = .returning m c → ¬σ.memory.FirstFit n c

end Machine
end Concurrent
end PhysicalMemoryManagement
