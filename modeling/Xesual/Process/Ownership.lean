import Xesual.Process.Machine

-- What a processor may assume about `currentProcess` and about the slots of the process table.

namespace ProcessManagement

-- The processor is in `schedule`, but not with one of the processes.
@[simp]
def Pc.BetweenProcesses : Pc → Bool
  | .acquiring | .condition _ | .releasing => true
  | _ => false

-- The processor executes a process. This includes `ProcessEntryPoint` and the handling of a fault until the slot
-- of the process is freed.
@[simp]
def Pc.Executing : Pc → Bool
  | .processEntryPoint | .user | .exiting | .freeing => true
  | _ => false

-- The process of the processor has exited, and the processor is on its way back to the loop of the scheduler.
@[simp]
def Pc.Leaving : Pc → Bool
  | .returning | .resumed _ => true
  | _ => false

variable {ι : Type}

namespace Machine

structure Accurate (σ : Machine ι) : Prop where
  between : ∀ i, (σ.cpu i).pc.BetweenProcesses → (σ.cpu i).currentProcess = none
  running : ∀ i p, (σ.cpu i).pc.Executing → (σ.cpu i).currentProcess = some p → (σ.table p).state = .running
  unique  : ∀ i j p, (σ.cpu i).currentProcess = some p → (σ.cpu j).currentProcess = some p → i = j

-- The processor neither continues the loop after `Pause` has returned to it, nor does it assign a slot to
-- `currentProcess` that is still the one of another processor whose process has exited.
def SettledAt (σ : Machine ι) : Pc → Prop
  | .resumed _   => False
  | .assigning p => ∀ j, (σ.cpu j).pc.Leaving → (σ.cpu j).currentProcess ≠ some p
  | _            => True

def Settled (σ : Machine ι) : Action ι → Prop
  | .proceed i _ => σ.SettledAt (σ.cpu i).pc
  | _            => True

variable [DecidableEq ι]

-- The slot, one or more fields of which are assigned to by the action.
def writes (σ : Machine ι) : Action ι → Option Slot
  | .proceed i _ =>
    match (σ.cpu i).pc with
    | .dispatching p  => some p
    | .freeing        => (σ.cpu i).currentProcess
    | .returning      => (σ.cpu i).schedulerTask.bind fun _ => (σ.cpu i).currentProcess
    | .scanning       => σ.findUnused
    | .initializing p => some p
    | .marking p      => some p
    | _               => none
  | _ => none

end Machine

-- The fields of a slot that determine how its process is continued. They are pointers into its kernel stack.
structure Task where
  kernelTask : Nat
  trapFrame  : Nat
  deriving DecidableEq

-- The kernel stacks that are returned by `allocatePage`, and the addresses at which the processors save the
-- registers when they execute `Pause` in `enterSchedulerFromProcess`.
structure Stacks (ι : Type) where
  kernelStack : Nat → Nat
  savedAt     : ι → Nat

-- The pointers that are set up by `allocateProcess` (lines 188-199). Above the `KernelContext` there are the
-- address of `TrapRet` and the `InterruptRegisters`.
def Stacks.initialTask (π : Stacks ι) (k : Nat) : Task where
  kernelTask := π.kernelStack k + 4096 - 22 * 8 - 8 - 7 * 8
  trapFrame  := π.kernelStack k + 4096 - 22 * 8

-- The machine with these fields, and a record of what has happened to the slots: what the last owner of a slot has
-- stored, how many kernel stacks have been allocated, and the slots that have been freed by each processor.
structure History (ι : Type) where
  machine   : Machine ι
  task      : Slot → Task
  stored    : Slot → Task
  allocated : Nat
  freed     : ι → List Slot

namespace History

def start : History ι where
  machine   := .start
  task _    := ⟨0, 0⟩
  stored _  := ⟨0, 0⟩
  allocated := 0
  freed _   := []

variable [DecidableEq ι]

-- The effect of the statement at `pc` on the additional fields.
def record (π : Stacks ι) (η : History ι) (i : ι) (success : Bool) : Pc → History ι
  | .initializing p =>
    if success then
      { η with
        task      := Function.update η.task p (π.initialTask η.allocated)
        stored    := Function.update η.stored p (π.initialTask η.allocated)
        allocated := η.allocated + 1 }
    else
      η
  | .freeing =>
    match (η.machine.cpu i).currentProcess with
    | some p => { η with freed := Function.update η.freed i (p :: η.freed i) }
    | none   => η
  | .returning =>
    match (η.machine.cpu i).currentProcess with
    | some p => { η with task := Function.update η.task p { η.task p with kernelTask := π.savedAt i } }
    | none   => η
  | _ => η

def step (π : Stacks ι) (η : History ι) (a : Action ι) : Option (History ι) :=
  (η.machine.step a).map fun machine =>
    match a with
    | .proceed i success => { η.record π i success (η.machine.cpu i).pc with machine }
    | _                  => { η with machine }

-- The processor does not write to a slot that it has freed before.
def LeavesAlone (η : History ι) : Action ι → Prop
  | .proceed i b => ∀ p ∈ η.freed i, η.machine.writes (.proceed i b) ≠ some p
  | _            => True

-- Whoever is about to switch to a process finds what has been stored for it.
def Kept (η : History ι) : Prop :=
  ∀ i p, (η.machine.cpu i).pc = .pausing p → η.task p = η.stored p

def NotReturning (η : History ι) (a : Action ι) : Prop :=
  η.machine.NotReturning a

end History
end ProcessManagement
