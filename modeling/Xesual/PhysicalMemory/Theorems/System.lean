import Xesual.PhysicalMemory.System
import Xesual.PhysicalMemory.Theorems.Ownership

namespace PhysicalMemoryManagement

-- For the ranges that the boot code hands in, `freeRange` is `freePages`.
theorem freeRange_eq {fuel : Nat} {s : State} {r : Range} (h : r.base + 4096 * r.numPages < 2 ^ 64) :
    freeRange fuel s r.base (r.base + 4096 * r.numPages) = freePages fuel s r.base r.numPages := by
  have : wrap (r.base + 4096 * r.numPages + 2 ^ 64 - r.base) / PageSize = r.numPages := by
    simp only [wrap, PageSize_eq]
    omega
  rw [freeRange, this]

namespace System

-- The condition under which the allocator works correctly: no range is handed in or freed that reaches a
-- defective branch of `freePages`.
def Careful (σ : System) : Action → Prop
  | .handIn r | .free r   => σ.memory.Separate r
  | .allocate _ | .write .. => True

structure Invariant (σ : System) : Prop where
  ownership : σ.memory.Ownership (σ.owned ++ σ.pending)
  pointer   : ∀ r ∈ σ.pending, r.base + 4096 * r.numPages < 2 ^ 64

variable {σ σ' : System} {ranges : List Range} {memory : State} {fuel : Nat} {a : Action} {as : List Action}

theorem start_invariant (h : HandedIn ranges) : (start memory ranges).Invariant where
  pointer   := h.pointer
  ownership := {
    wellFormed := ⟨[], State.freeList_nil rfl⟩
    valid      := h.valid
    disjoint   := h.disjoint
    free       := fun _ _ => by rw [State.covered_eq_empty rfl]; exact Set.disjoint_empty _
    head       := fun hf => absurd rfl hf
  }

theorem step_invariant (inv : σ.Invariant) (hc : Careful σ a) (h : step fuel σ a = some σ') :
    σ'.Invariant := by
  have ⟨o, hp⟩ := inv
  cases a <;> simp only [step, Option.ite_none_right_eq_some] at h
  case handIn r =>
    have ⟨hr, h⟩ := h
    have ⟨m, hf, h⟩ := Option.map_eq_some_iff.mp h
    subst h
    rw [freeRange_eq (hp r hr)] at hf
    have hperm : (σ.owned ++ σ.pending).Perm (r :: (σ.owned ++ σ.pending.erase r)) :=
      ((List.perm_cons_erase hr).append_left _).trans List.perm_middle
    exact ⟨(o.perm hperm).freePages hc hf, fun r' h => hp r' (List.mem_of_mem_erase h)⟩
  case free r =>
    have ⟨hr, h⟩ := h
    have ⟨m, hf, h⟩ := Option.map_eq_some_iff.mp h
    subst h
    have hperm : (σ.owned ++ σ.pending).Perm (r :: (σ.owned.erase r ++ σ.pending)) :=
      (List.perm_cons_erase hr).append_right _
    exact ⟨(o.perm hperm).freePages hc hf, hp⟩
  case allocate n =>
    have ⟨hn, h⟩ := h
    have ⟨⟨m, b⟩, hf, h⟩ := Option.map_eq_some_iff.mp h
    subst h
    have ⟨cs, fl⟩ := o.wellFormed
    cases fl.allocatePages_cases hn hf
    case inl he => simpa [he.left, he.right.left] using inv
    case inr he =>
      have ⟨c, hc, hle, hm, hb, h0⟩ := he
      simp only [h0, ↓reduceIte]
      exact ⟨hb ▸ hm ▸ o.take (fl.mem_iff.mp hc) hn hle, hp⟩
  case write x v =>
    have ⟨⟨r, hr, hx⟩, h⟩ := h
    cases h
    exact ⟨o.store (List.mem_append_left _ hr) hx v, hp⟩

theorem execution_invariant (hr : HandedIn ranges)
    (e : Execution (step fuel) Careful (start memory ranges) as σ) : σ.Invariant :=
  e.invariant (start_invariant hr) (fun inv hc h => step_invariant inv hc h)

section Evaluation

-- The chunks that are found in `n` steps.
def chunks (s : State) : Nat → Nat → List Nat
  | 0,     _ => []
  | n + 1, c => if c = 0 then [] else c :: chunks s n (s.next c)

-- The condition for a list of at most `n` chunks, to evaluate it.
def Checked (n : Nat) (σ : System) : Action → Prop
  | .handIn r | .free r =>
    Linked.Chain σ.memory.next 0 σ.memory.freeList (chunks σ.memory n σ.memory.freeList) ∧
      ∀ c ∈ chunks σ.memory n σ.memory.freeList, c + 4096 * σ.memory.numPages c ≠ r.base ∧
        (r.base + 4096 * r.numPages = c → c = σ.memory.freeList ∨ σ.memory.next c = 0)
  | .allocate _ | .write .. => True

instance (n : Nat) (σ : System) : ∀ a, Decidable (Checked n σ a)
  | .handIn _ | .free _     => inferInstanceAs <| Decidable (_ ∧ _)
  | .allocate _ | .write .. => inferInstanceAs <| Decidable True

theorem careful_of_checked {n : Nat} (h : Checked n σ a) : Careful σ a := by
  cases a
  case handIn r | free r =>
    obtain ⟨hc, h⟩ := h
    exact ⟨fun c hl => (h c (hc.mem_iff.mpr hl)).left, fun c hl => (h c (hc.mem_iff.mpr hl)).right⟩
  all_goals trivial

end Evaluation

-- In every run that avoids the defective branches, no page is owned twice.
theorem exclusive_of_careful (hr : HandedIn ranges)
    (e : Execution (step fuel) Careful (start memory ranges) as σ) : σ.Exclusive := by
  have o := execution_invariant hr e |>.ownership
  have ⟨cs, fl⟩ := o.wellFormed
  constructor
  case owned => exact List.pairwise_append.mp o.disjoint |>.left
  case free  =>
    intro r hr c hc
    have hsub : σ.memory.pages c ⊆ σ.memory.covered := fun x hx => ⟨c, hc, hx⟩
    exact Set.disjoint_of_subset_right hsub (o.free r (by simp [hr]))
  case chunk => exact fun c d hc hd h => fl.disjoint (fl.mem_iff.mpr hc) (fl.mem_iff.mpr hd) h

-- Memory that is filled with zeros.
def blank : State where
  chunk _  := ⟨0, 0, 0⟩
  freeList := 0

def threeRanges : List Range :=
  [⟨0xffff800000100000, 3⟩, ⟨0xffff800000300000, 2⟩, ⟨0xffff800000200000, 2⟩]

-- Three ranges are handed in, the last one in between the others. Then the lower range loses two pages, and the one in
-- the middle is taken as a whole, which removes it from the list, and freed again.
def threeRangesRun : List Action :=
  [ .handIn ⟨0xffff800000100000, 3⟩, .handIn ⟨0xffff800000300000, 2⟩, .handIn ⟨0xffff800000200000, 2⟩, .allocate 2,
    .write 0xffff800000101000 ⟨7, 8, 9⟩, .allocate 2, .free ⟨0xffff800000200000, 2⟩, .allocate 1 ]

theorem exclusive_of_careful_ranges : ∃ σ, Execution (step 4) Careful (start blank threeRanges) threeRangesRun σ ∧
    σ.owned = [⟨0xffff800000100000, 1⟩, ⟨0xffff800000101000, 2⟩] ∧
    Linked.Chain σ.memory.next 0 σ.memory.freeList [0xffff800000200000, 0xffff800000300000] ∧ σ.Exclusive := by
  have h : ∃ σ ∈ Execution.runIf (step 4) (Checked 4) (start blank threeRanges) threeRangesRun,
      σ.owned = [⟨0xffff800000100000, 1⟩, ⟨0xffff800000101000, 2⟩] ∧
      Linked.Chain σ.memory.next 0 σ.memory.freeList [0xffff800000200000, 0xffff800000300000] := by decide +kernel
  obtain ⟨σ, hσ, ho, hc⟩ := h
  have e := (Execution.of_runIf hσ).weaken fun _ _ => careful_of_checked
  exact ⟨σ, e, ho, hc, exclusive_of_careful ⟨by decide, by decide, by decide⟩ e⟩

-- When two adjacent ranges are handed in, then the upper one is covered by two chunks. Its page is thus
-- handed out twice.
theorem not_exclusive : ¬∀ fuel memory ranges as σ, HandedIn ranges →
    Execution (step fuel) Execution.Free (start memory ranges) as σ → σ.Exclusive := by
  intro h
  have hr : (Execution.run (step 4)
      (start blank [⟨0xffff800000100000, 1⟩, ⟨0xffff800000101000, 1⟩])
      [.handIn ⟨0xffff800000100000, 1⟩, .handIn ⟨0xffff800000101000, 1⟩,
        .allocate 1, .allocate 1, .allocate 1]).map (·.owned) =
      some [⟨0xffff800000101000, 1⟩, ⟨0xffff800000100000, 1⟩, ⟨0xffff800000101000, 1⟩] := by decide
  have ⟨σ, hr, ho⟩ := Option.map_eq_some_iff.mp hr
  have := h _ _ _ _ σ ⟨by decide, by decide, by decide⟩ (Execution.of_run hr) |>.owned
  rw [ho] at this
  exact absurd this (by decide)

-- The `prev` and `next` fields of the free list fit together, and a chunk that loses its last page also
-- leaves the free list.
structure Consistent (memory : State) : Prop where
  linked   : ∀ c, memory.Listed c → memory.next c ≠ 0 → memory.prev (memory.next c) = c
  unlinked : ∀ fuel n memory' b, 1 ≤ n → allocatePages fuel memory n = some (memory', b) →
    ∀ c, memory.Listed c → memory'.numPages c = 0 → ¬memory'.Listed c

-- In every run that avoids the defective branches, the links of the free list are consistent.
theorem consistent_of_careful (hr : HandedIn ranges)
    (e : Execution (step fuel) Careful (start memory ranges) as σ) : Consistent σ.memory := by
  have o := execution_invariant hr e |>.ownership
  have ⟨cs, fl⟩ := o.wellFormed
  constructor
  case linked   => exact fun c hc => fl.linked c (fl.mem_iff.mpr hc)
  case unlinked =>
    intro fuel n memory' b hn h c hc h0 hc'
    -- All chunks of the list after the call have at least one page.
    have ⟨cs', fl'⟩ : memory'.WellFormed := by
      cases fl.allocatePages_cases hn h
      case inl he => exact he.left ▸ o.wellFormed
      case inr he =>
        have ⟨d, hd, hle, hm, _⟩ := he
        exact hm ▸ (o.take (fl.mem_iff.mp hd) hn hle).wellFormed
    have := fl'.nonempty c (fl'.mem_iff.mpr hc')
    omega

-- All three ranges are on the list at first. Taking the whole range in the middle removes it from the list, and the links
-- of the others fit together.
theorem consistent_of_careful_ranges : ∃ σ σ',
    Execution (step 4) Careful (start blank threeRanges) (threeRangesRun.take 5) σ ∧
    Linked.Chain σ.memory.next 0 σ.memory.freeList [0xffff800000100000, 0xffff800000200000, 0xffff800000300000] ∧
    step 4 σ (.allocate 2) = some σ' ∧
    Linked.Chain σ'.memory.next 0 σ'.memory.freeList [0xffff800000100000, 0xffff800000300000] ∧
    Consistent σ.memory ∧ Consistent σ'.memory := by
  have h : ∃ σ ∈ Execution.runIf (step 4) (Checked 4) (start blank threeRanges) (threeRangesRun.take 5),
      Linked.Chain σ.memory.next 0 σ.memory.freeList [0xffff800000100000, 0xffff800000200000, 0xffff800000300000] ∧
      ∃ σ' ∈ step 4 σ (.allocate 2),
        Linked.Chain σ'.memory.next 0 σ'.memory.freeList [0xffff800000100000, 0xffff800000300000] := by decide +kernel
  obtain ⟨σ, hσ, hc, σ', hσ', hc'⟩ := h
  have e := (Execution.of_runIf hσ).weaken fun _ _ => careful_of_checked
  have e' := e.snoc (a := .allocate 2) (by trivial) hσ'
  have hr : HandedIn threeRanges := ⟨by decide, by decide, by decide⟩
  exact ⟨σ, σ', e, hc, hσ', hc', consistent_of_careful hr e, consistent_of_careful hr e'⟩

-- When a range absorbs the chunk thereafter, then the next chunk still refers to the absorbed chunk. Taking
-- all pages of the next chunk therefore does not remove it from the list.
theorem not_consistent : ¬∀ fuel memory ranges as σ, HandedIn ranges →
    Execution (step fuel) Execution.Free (start memory ranges) as σ → Consistent σ.memory := by
  intro h
  have hr : (Execution.run (step 9)
      (start blank [⟨0xffff800000100000, 1⟩, ⟨0xffff800000103000, 1⟩, ⟨0xffff800000105000, 3⟩,
        ⟨0xffff800000102000, 1⟩])
      [.handIn ⟨0xffff800000100000, 1⟩, .handIn ⟨0xffff800000103000, 1⟩, .handIn ⟨0xffff800000105000, 3⟩,
        .handIn ⟨0xffff800000102000, 1⟩]).map (fun σ => (allocatePages 9 σ.memory 3).map fun r =>
          [σ.memory.freeList, σ.memory.next 0xffff800000100000, σ.memory.next 0xffff800000102000,
            r.fst.freeList, r.fst.next 0xffff800000100000, r.fst.next 0xffff800000102000,
            r.fst.numPages 0xffff800000105000]) =
      some (some [0xffff800000100000, 0xffff800000102000, 0xffff800000105000,
        0xffff800000100000, 0xffff800000102000, 0xffff800000105000, 0]) := by decide
  obtain ⟨σ, hr, ha⟩ := Option.map_eq_some_iff.mp hr
  obtain ⟨⟨m, b⟩, ha, hm⟩ := Option.map_eq_some_iff.mp ha
  simp only [List.cons.injEq, and_true] at hm
  obtain ⟨h₁, h₂, h₃, h₄, h₅, h₆, h₇⟩ := hm
  have hc := h _ _ _ _ σ ⟨by decide, by decide, by decide⟩ (Execution.of_run hr)
  -- The last chunk is reachable both before and after the allocation.
  have listed (m : State) (h₁ : m.freeList = 0xffff800000100000)
      (h₂ : m.next 0xffff800000100000 = 0xffff800000102000)
      (h₃ : m.next 0xffff800000102000 = 0xffff800000105000) : m.Listed 0xffff800000105000 := by
    have r₁ : m.Listed 0xffff800000100000 := h₁ ▸ .head (by rw [h₁]; decide)
    have r₂ : m.Listed 0xffff800000102000 := h₂ ▸ r₁.next (by rw [h₂]; decide)
    exact h₃ ▸ r₂.next (by rw [h₃]; decide)
  exact hc.unlinked 9 3 m b (by decide) ha _ (listed σ.memory h₁ h₂ h₃) h₇ (listed m h₄ h₅ h₆)

end System
end PhysicalMemoryManagement
