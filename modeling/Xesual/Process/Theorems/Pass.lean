import Xesual.Process.Basic

namespace ProcessManagement.Pass

variable {pause : Nat → (Nat → ProcessState) → Nat → ProcessState} {s : Pass} {fuel : Nat}

-- The loop stays at the same slot, whether or not it switches to it.
theorem iterate_p : (s.iterate pause).p = s.p := by
  simp only [iterate]
  split <;> rfl

theorem run_eq_none (h : s.p < 64) : run pause fuel s = none := by
  induction fuel generalizing s
  case zero    => rfl
  case succ ih =>
    rw [run, if_pos h]
    apply ih
    rwa [iterate_p]

theorem run_start {table : Nat → ProcessState} : run pause fuel (start table) = none :=
  run_eq_none (Nat.zero_lt_succ 63)

-- The loop never ends, for every content of the table and however it is changed by the processes.
theorem not_complete (pause : Nat → (Nat → ProcessState) → Nat → ProcessState) (table : Nat → ProcessState) :
    ¬Complete pause table := by
  intro ⟨fuel, s, h, _⟩
  rw [run_start] at h
  contradiction

-- In particular, the loop does not end if there are no processes.
theorem not_forall_complete : ¬∀ pause table, Complete pause table := by
  intro h
  have ⟨fuel, s, h, _⟩ := h (fun _ table => table) (fun _ => .unused)
  rw [run_start] at h
  contradiction

end ProcessManagement.Pass
