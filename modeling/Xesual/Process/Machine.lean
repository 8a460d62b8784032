import Xesual.Library.Execution
import Xesual.Process.Basic

-- Processors that create processes, schedule them, and leave them when they fault. The lock is an ideal one
-- that remembers by which processor it has been acquired: `acquire` waits until the lock is free, whereas
-- `release` frees the lock no matter who executes it.

namespace ProcessManagement

-- Where a kernel context of a process continues: at the beginning of `ProcessEntryPoint`, or after the call of
-- `Pause` in `enterSchedulerFromProcess`.
inductive KernelContext
  | processEntryPoint
  | enterSchedulerFromProcess
  deriving DecidableEq

-- A slot of `ProcessTable`. Initially, `kernelTask` is the null pointer.
structure ProcessInfo where
  state      : ProcessState
  kernelTask : Option KernelContext
  deriving DecidableEq

abbrev Slot := Fin 64

-- The statement that a processor executes next, by the function that it belongs to. The numbers are lines of
-- `ProcessManagement.cpp`.
inductive Pc
  | idle
  -- `schedule`
  | entering                 -- 120
  | acquiring                -- 125
  | condition (p : Nat)      -- 126
  | examining (p : Slot)     -- 127
  | assigning (p : Slot)     -- 131
  | dispatching (p : Slot)   -- 135
  | pausing (p : Slot)       -- 138
  | resumed (p : Slot)       -- 126, the increment
  | releasing                -- 140
  -- `ProcessEntryPoint` and the process itself
  | processEntryPoint        -- 147
  | user
  -- `exitCurrentProcess` with `freeProcess` and `enterSchedulerFromProcess`
  | exiting                  -- 152
  | freeing                  -- 154, 155
  | freed                    -- 157
  | returning                -- 114
  -- `allocateProcess`
  | allocating               -- 162
  | scanning                 -- 164-179
  | scanned (p : Option Slot) -- 173, 180
  | initializing (p : Slot)  -- 182-199
  -- the end of `createFirstProcess`
  | publishing (p : Slot)    -- 221
  | marking (p : Slot)       -- 222
  | marked                   -- 223
  -- `PanicExclamationExclamation`
  | halted
  deriving DecidableEq

-- The saved context of the scheduler is given by the value of its variable `p`.
structure CPUState where
  pc             : Pc
  currentProcess : Option Slot
  schedulerTask  : Option Slot

structure Machine (ι : Type) where
  table : Slot → ProcessInfo
  lock  : Option ι
  cpu   : ι → CPUState

-- A processor can call `schedule` or `createFirstProcess`, it can receive an interrupt in user mode, or it
-- executes the next statement. The allocation of a kernel stack may or may not succeed.
inductive Action (ι : Type)
  | schedule (i : ι)
  | create   (i : ι)
  | trap     (i : ι) (interruptNumber : Nat)
  | proceed  (i : ι) (success : Bool)

-- Where the processor continues after an interrupt in user mode: it panics on a double fault, leaves the process
-- on a general protection fault or a page fault, and returns to the process otherwise.
def trapHandler (c : CPUState) : Nat → Pc
  | 8       => .halted
  | 13 | 14 => if c.currentProcess = none then .halted else .exiting
  | _       => .user

variable {ι : Type} [DecidableEq ι]

namespace Machine

def start : Machine ι where
  table _ := ⟨.unused, none⟩
  lock    := none
  cpu _   := ⟨.idle, none, none⟩

def setCPU (σ : Machine ι) (i : ι) (c : CPUState) : Machine ι :=
  { σ with cpu := Function.update σ.cpu i c }

def goto (σ : Machine ι) (i : ι) (pc : Pc) : Machine ι :=
  σ.setCPU i { σ.cpu i with pc }

def setSlot (σ : Machine ι) (p : Slot) (info : ProcessInfo) : Machine ι :=
  { σ with table := Function.update σ.table p info }

def setState (σ : Machine ι) (p : Slot) (state : ProcessState) : Machine ι :=
  σ.setSlot p { σ.table p with state }

section SetState

omit [DecidableEq ι]

variable {σ : Machine ι} {p q : Slot} {state : ProcessState}

@[simp]
theorem setState_cpu : (σ.setState p state).cpu = σ.cpu := rfl

@[simp]
theorem setState_lock : (σ.setState p state).lock = σ.lock := rfl

@[simp]
theorem setState_state_self : ((σ.setState p state).table p).state = state := by
  simp [setState, setSlot]

theorem setState_table_of_ne (h : q ≠ p) : (σ.setState p state).table q = σ.table q := by
  simp [setState, setSlot, h]

end SetState

def acquire (σ : Machine ι) (i : ι) : Option (Machine ι) :=
  if σ.lock.isNone then some { σ with lock := some i } else none

def release (σ : Machine ι) : Machine ι :=
  { σ with lock := none }

-- The first slot that is not in use.
def findUnused (σ : Machine ι) : Option Slot :=
  (List.finRange 64).find? (fun p => (σ.table p).state = .unused)

-- `Pause(&cpu->schedulerTask, p->kernelTask)`
def pauseScheduler (σ : Machine ι) (i : ι) (p : Slot) : Machine ι :=
  let pc := match (σ.table p).kernelTask with
    | some .processEntryPoint         => .processEntryPoint
    | some .enterSchedulerFromProcess => .user
    | none                            => .halted
  σ.setCPU i { σ.cpu i with pc, schedulerTask := some p }

-- `Pause(&cpu->currentProcess->kernelTask, cpu->schedulerTask)`
def pauseProcess (σ : Machine ι) (i : ι) : Machine ι :=
  match (σ.cpu i).currentProcess, (σ.cpu i).schedulerTask with
  | some q, some p =>
    (σ.setSlot q { σ.table q with kernelTask := some .enterSchedulerFromProcess }).goto i (.resumed p)
  | _, _ => σ.goto i .halted

def step (σ : Machine ι) : Action ι → Option (Machine ι)
  | .schedule i =>
    match (σ.cpu i).pc with
    | .idle => some (σ.goto i .entering)
    | _     => none
  | .create i =>
    match (σ.cpu i).pc with
    | .idle => some (σ.goto i .allocating)
    | _     => none
  | .trap i interruptNumber =>
    match (σ.cpu i).pc with
    | .user => some (σ.goto i (trapHandler (σ.cpu i) interruptNumber))
    | _     => none
  | .proceed i success =>
    match (σ.cpu i).pc with
    | .idle | .user | .halted => none
    | .entering          => some (σ.setCPU i { σ.cpu i with pc := .acquiring, currentProcess := none })
    | .acquiring         => (σ.acquire i).map (·.goto i (.condition 0))
    | .condition p       => some (σ.goto i (if h : p < 64 then .examining ⟨p, h⟩ else .releasing))
    | .examining p       =>
      some (σ.goto i (if (σ.table p).state ≠ .runnable then .condition (advance p) else .assigning p))
    | .assigning p       => some (σ.setCPU i { σ.cpu i with pc := .dispatching p, currentProcess := some p })
    | .dispatching p     => some ((σ.setState p .running).goto i (.pausing p))
    | .pausing p         => some (σ.pauseScheduler i p)
    | .resumed p         => some (σ.goto i (.condition (advance p)))
    | .releasing         => some (σ.release.goto i .acquiring)
    | .processEntryPoint => some (σ.release.goto i .user)
    | .exiting           => (σ.acquire i).map (·.goto i .freeing)
    | .freeing           =>
      match (σ.cpu i).currentProcess with
      | some p => some ((σ.setState p .unused).goto i .freed)
      | none   => some (σ.goto i .halted)
    | .freed             => some (σ.release.goto i .returning)
    | .returning         => some (σ.pauseProcess i)
    | .allocating        => (σ.acquire i).map (·.goto i .scanning)
    | .scanning          =>
      match σ.findUnused with
      | some p => some ((σ.setState p .fresh).goto i (.scanned (some p)))
      | none   => some (σ.goto i (.scanned none))
    -- `createFirstProcess` does not check whether it has got a process.
    | .scanned (some p)  => some (σ.release.goto i (.initializing p))
    | .scanned none      => some (σ.release.goto i .halted)
    | .initializing p    =>
      if success then
        some ((σ.setSlot p { σ.table p with kernelTask := some .processEntryPoint }).goto i (.publishing p))
      else
        some ((σ.setState p .unused).goto i .halted)
    | .publishing p      => (σ.acquire i).map (·.goto i (.marking p))
    | .marking p         => some ((σ.setState p .runnable).goto i .marked)
    | .marked            => some (σ.release.goto i .idle)

end Machine

-- The processor is in the part of `schedule` that accesses the process table, or about to release the lock
-- thereafter.
@[simp]
def Pc.InLoop : Pc → Bool
  | .condition _ | .examining _ | .assigning _ | .dispatching _ | .pausing _ | .resumed _ | .releasing => true
  | _ => false

namespace Machine

-- Whoever executes the loop of `schedule` holds the lock.
def Disciplined (σ : Machine ι) : Prop :=
  ∀ i, (σ.cpu i).pc.InLoop → σ.lock = some i

-- The action is not the switch from a process back to the scheduler.
def NotReturning (σ : Machine ι) : Action ι → Prop
  | .proceed i _ => (σ.cpu i).pc ≠ .returning
  | _            => True

end Machine
end ProcessManagement
