import Mathlib

-- The process table and the inner loop of the scheduler (`ProcessManagement.cpp`).

namespace ProcessManagement

-- The states of a slot of `ProcessTable`.
inductive ProcessState
  | unused
  | fresh
  | runnable
  | running
  deriving DecidableEq

-- The expression `p++`: its value, and the value of `p` thereafter.
def postIncrement (p : Nat) : Nat × Nat :=
  (p, p + 1)

-- The statement `p = p++` that advances the loop. The right operand of an assignment is sequenced before the
-- left one, so the side effect on `p` precedes the assignment and is overwritten by it.
def advance (p : Nat) : Nat :=
  let (value, _) := postIncrement p
  value

-- The inner loop of `schedule` (lines 126-139), together with what it has done so far: the slots that have
-- been examined and their states at that time, and the slots that have been switched to.
structure Pass where
  table    : Nat → ProcessState
  p        : Nat
  examined : List (Nat × ProcessState)
  switched : List Nat

namespace Pass

def start (table : Nat → ProcessState) : Pass where
  table    := table
  p        := 0
  examined := []
  switched := []

-- The body of the loop. The `k`-th call of `Pause` returns after `pause k` has been applied to the table.
def iterate (pause : Nat → (Nat → ProcessState) → Nat → ProcessState) (s : Pass) : Pass :=
  let s := { s with examined := s.examined ++ [(s.p, s.table s.p)] }
  if s.table s.p ≠ .runnable then
    { s with p := advance s.p }
  else
    let table := Function.update s.table s.p .running
    { s with
      table    := pause s.switched.length table
      switched := s.switched ++ [s.p]
      p        := advance s.p }

-- The loop is cut off after `fuel` iterations. When it ends, `ProcessTableSpinlock` is released.
def run (pause : Nat → (Nat → ProcessState) → Nat → ProcessState) : Nat → Pass → Option Pass
  | 0,        _ => none
  | fuel + 1, s => if s.p < 64 then run pause fuel (s.iterate pause) else some s

-- The loop ends after it has examined each slot once, and has switched to exactly those slots that were
-- runnable.
def Complete (pause : Nat → (Nat → ProcessState) → Nat → ProcessState) (table : Nat → ProcessState) : Prop :=
  ∃ fuel s, run pause fuel (start table) = some s ∧ s.examined.map (·.fst) = List.range 64 ∧
    s.switched = (s.examined.filter (·.snd = .runnable)).map (·.fst)

end Pass
end ProcessManagement
