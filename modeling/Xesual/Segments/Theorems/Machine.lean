import Xesual.Segments.Theorems.Table

namespace Segments.Machine

open Table

variable {table stackLocation : BitVec 64} {m m₀ : Memory} {σ σ' : Machine} {a : Action} {as : List Action}
  {cs ss : BitVec 16} {cpl : BitVec 2} {saved : List Saved}

-- The selectors that are in use while the kernel or a process is executed.
def Kernel (cs ss : BitVec 16) : Prop := cs = 8 ∧ (ss = 0 ∨ ss = 0x10)
def User (cs ss : BitVec 16) : Prop := cs = 0x2b ∧ (ss = 0x23 ∨ ss = 0x33)

-- The task state segment is the same as in the memory `m₀`.
structure Invariant (table : BitVec 64) (m₀ : Memory) (σ : Machine) : Prop where
  intact  : Intact table σ.memory
  segment : Set.EqOn σ.memory m₀ (Memory.region (table + 72) 104)
  current : Kernel σ.cs σ.ss ∨ User σ.cs σ.ss
  saved   : ∀ cs ss, .interrupt cs ss ∈ σ.saved → Kernel cs ss ∨ User cs ss

theorem installed_invariant {tr : TaskRegister} (h : install table (init table stackLocation m) = some (σ, tr)) :
    Invariant table (init table stackLocation m) σ := by
  obtain ⟨m', hm', hi, hc⟩ : ∃ m', install table (init table stackLocation m) = _ ∧ _ ∧ _ := exists_install
  rw [hm'] at h
  cases h
  exact ⟨hi, eqOn_of_changes hc, .inl ⟨rfl, .inr rfl⟩, fun _ _ hs => absurd hs List.not_mem_nil⟩

section Gates

theorem lookup_kernelCode (h : Intact table m) :
    (tableRegister table).lookup m gateSelector = some (.ofBits (entry .kernelCode).bits) := by
  have hd : (tableRegister table).lookup m gateSelector =
      some (.ofBits (m.load (table + .ofNat 64 (offsetof .kernelCode)))) := rfl
  rw [hd, h.segment .kernelCode (by decide)]

theorem acceptsGate_gateSelector (h : Intact table m) : acceptsGate (tableRegister table) m cpl gateSelector := by
  rw [acceptsGate, lookup_kernelCode h]
  revert cpl
  decide

theorem gateLevel_gateSelector (h : Intact table m) : gateLevel (tableRegister table) m cpl gateSelector = 0 := by
  rw [gateLevel, lookup_kernelCode h]
  revert cpl
  decide

-- Interrupts are always accepted, and lead to the kernel.
theorem step_interrupt (h : Intact table σ.memory) : σ.step (tableRegister table) starRegister .interrupt = some
    { memory := (tableRegister table).use gateSelector σ.memory
      cs     := 8
      ss     := if 0 = σ.level then σ.ss else 0
      saved  := .interrupt σ.cs σ.ss :: σ.saved } := by
  simp only [step, acceptsGate_gateSelector h, gateLevel_gateSelector h, ↓reduceIte]
  rfl

end Gates

section Frames

-- A frame is accepted if its selectors are among the ones above.
theorem loadFrame_eq (h : Intact table σ.memory) (hl : σ.level = 0) (hv : Kernel cs ss ∨ User cs ss) :
    loadFrame (tableRegister table) σ cs ss saved =
      some ⟨(tableRegister table).use ss ((tableRegister table).use cs σ.memory), cs, ss, saved⟩ := by
  have ha : acceptsCode (tableRegister table) σ.memory σ.level cs ∧
      acceptsStack (tableRegister table) σ.memory cs ss := by
    refine (accepts_iff h).mpr ?_
    obtain ⟨hc, hs⟩ | ⟨hc, hs⟩ := hv
    · exact .inl ⟨hl, hc, hs⟩
    · exact .inr ⟨.inr hc, hs⟩
  rw [loadFrame, ha.left, ha.right]
  rfl

theorem toNat_lt (hv : Kernel cs ss ∨ User cs ss) : cs.toNat < 56 ∧ ss.toNat < 56 := by
  obtain ⟨rfl, rfl | rfl⟩ | ⟨rfl, rfl | rfl⟩ := hv <;> decide

theorem changes_frame (hv : Kernel cs ss ∨ User cs ss) :
    m.Changes ((tableRegister table).use ss ((tableRegister table).use cs m)) (Memory.region table 72) :=
  (changes_use (toNat_lt hv).left).trans (changes_use (toNat_lt hv).right)

theorem intact_frame (h : Intact table m) (hv : Kernel cs ss ∨ User cs ss) :
    Intact table ((tableRegister table).use ss ((tableRegister table).use cs m)) :=
  intact_use (intact_use h (toNat_lt hv).left) (toNat_lt hv).right

end Frames

-- The level is the one of the kernel or of a process.
theorem Invariant.kernel_of_level (inv : Invariant table m₀ σ) (h : σ.level = 0) : Kernel σ.cs σ.ss := by
  obtain hk | ⟨hc, -⟩ := inv.current
  · exact hk
  · rw [level, hc] at h
    exact absurd h (by decide)

theorem Invariant.step_iretq (inv : Invariant table m₀ σ) (hl : σ.level = 0) (hs : σ.saved = .interrupt cs ss :: saved) :
    σ.step (tableRegister table) starRegister .iretq =
      some ⟨(tableRegister table).use ss ((tableRegister table).use cs σ.memory), cs, ss, saved⟩ := by
  have hv := inv.saved cs ss (hs ▸ List.mem_cons_self ..)
  simp only [step, hs, hl, ↓reduceIte]
  exact loadFrame_eq inv.intact hl hv

-- The data segment that is selected by `sysretq` is not the one of a new process.
theorem syscallSelectors_starRegister : syscallSelectors starRegister = (8, 0x10) := by decide
theorem sysretSelectors_starRegister : sysretSelectors starRegister = (0x2b, 0x23) := by decide

theorem user_process : User processCs processSs := ⟨rfl, .inr rfl⟩

theorem Invariant.step_start (inv : Invariant table m₀ σ) (hl : σ.level = 0) :
    σ.step (tableRegister table) starRegister .start =
      some ⟨(tableRegister table).use processSs ((tableRegister table).use processCs σ.memory), processCs, processSs,
        []⟩ := by
  simp only [step, hl, ↓reduceIte]
  exact loadFrame_eq inv.intact hl (.inr user_process)

theorem Invariant.loadFrame (inv : Invariant table m₀ σ) (hv : Kernel cs ss ∨ User cs ss) (hs : saved ⊆ σ.saved) :
    Invariant table m₀ ⟨(tableRegister table).use ss ((tableRegister table).use cs σ.memory), cs, ss, saved⟩ where
  intact        := intact_frame inv.intact hv
  segment       := (eqOn_of_changes (changes_frame hv)).trans inv.segment
  current       := hv
  saved cs ss h := inv.saved cs ss (hs h)

theorem step_invariant (inv : Invariant table m₀ σ) (h : σ.step (tableRegister table) starRegister a = some σ') :
    Invariant table m₀ σ' := by
  cases a
  case interrupt =>
    rw [step_interrupt inv.intact] at h
    cases h
    have hgate : gateSelector.toNat < 56 := by decide
    have hc : σ.memory.Changes ((tableRegister table).use gateSelector σ.memory) (Memory.region table 72) :=
      changes_use hgate
    refine ⟨intact_use inv.intact hgate, (eqOn_of_changes hc).trans inv.segment, .inl ⟨rfl, ?_⟩, ?_⟩
    · split
      case isTrue hl => exact (inv.kernel_of_level hl.symm).right
      case isFalse   => exact .inl rfl
    · intro cs ss hs
      obtain hs | hs := List.mem_cons.mp hs
      · cases hs
        exact inv.current
      · exact inv.saved cs ss hs
  case iretq =>
    cases hs : σ.saved
    case nil => simp [step, hs] at h
    case cons x saved =>
      cases x
      case syscall => simp [step, hs] at h
      case interrupt cs ss =>
        by_cases hl : σ.level = 0
        case neg => simp only [step, hs, hl, ↓reduceIte, reduceCtorEq] at h
        case pos =>
          have hv : Kernel cs ss ∨ User cs ss := inv.saved cs ss (hs ▸ List.mem_cons_self ..)
          rw [inv.step_iretq hl hs] at h
          cases h
          exact inv.loadFrame hv (hs ▸ List.subset_cons_self ..)
  case syscall =>
    simp only [step, syscallSelectors_starRegister] at h
    split at h
    case isFalse => contradiction
    case isTrue =>
      cases h
      refine ⟨inv.intact, inv.segment, .inl ⟨rfl, .inr rfl⟩, fun cs ss hs => inv.saved cs ss ?_⟩
      simpa using hs
  case sysretq =>
    cases hs : σ.saved
    case nil => simp [step, hs] at h
    case cons x saved =>
      cases x
      case interrupt => simp [step, hs] at h
      case syscall =>
        simp only [step, hs, sysretSelectors_starRegister] at h
        split at h
        case isFalse => contradiction
        case isTrue =>
          cases h
          refine ⟨inv.intact, inv.segment, .inr ⟨rfl, .inl rfl⟩, fun cs ss hm => inv.saved cs ss ?_⟩
          exact hs ▸ List.mem_cons_of_mem _ hm
  case start =>
    by_cases hl : σ.level = 0
    case neg => simp only [step, hl, ↓reduceIte, reduceCtorEq] at h
    case pos =>
      rw [inv.step_start hl] at h
      cases h
      exact inv.loadFrame (.inr user_process) (List.nil_subset _)
  case others memory =>
    have hmem (k : BitVec 64) (hk : (k - table).toNat < 176) : σ'.memory k = σ.memory k := by
      cases h
      exact if_pos hk
    have hrest : σ'.cs = σ.cs ∧ σ'.ss = σ.ss ∧ σ'.saved = σ.saved := by
      cases h
      exact ⟨rfl, rfl, rfl⟩
    refine ⟨intact_congr inv.intact fun k hk => hmem k ?_, fun k hk => (hmem k ?_).trans (inv.segment hk), ?_, ?_⟩
    · simp only [Memory.region, Set.mem_ofPred_eq] at hk
      omega
    · simp only [Memory.region, Set.mem_ofPred_eq] at hk
      bv_omega
    · rw [hrest.left, hrest.right.left]
      exact inv.current
    · rw [hrest.right.right]
      exact inv.saved

-- The selectors tell whether the kernel or a process is executed, and the processor accepts all of them: those of the
-- interrupt gates, those that have been saved by an interrupt, and those of a new process.
structure Accepted (table : BitVec 64) (σ : Machine) : Prop where
  current   : Kernel σ.cs σ.ss ∨ User σ.cs σ.ss
  interrupt : (σ.step (tableRegister table) starRegister .interrupt).isSome
  iretq     : ∀ cs ss saved, σ.level = 0 → σ.saved = .interrupt cs ss :: saved →
    ∃ σ', σ.step (tableRegister table) starRegister .iretq = some σ' ∧ σ'.cs = cs ∧ σ'.ss = ss
  start     : σ.level = 0 → (σ.step (tableRegister table) starRegister .start).isSome

-- No matter how interrupts and system calls are nested.
theorem accepted {tr : TaskRegister} (h : install table (init table stackLocation m) = some (σ, tr))
    (e : Execution (step (tableRegister table) starRegister) Execution.Free σ as σ') : Accepted table σ' := by
  have inv : Invariant table _ σ' := e.invariant (installed_invariant h) fun inv _ => step_invariant inv
  constructor
  case current   => exact inv.current
  case interrupt => rw [step_interrupt inv.intact]; rfl
  case iretq     => exact fun cs ss saved hl hs => ⟨_, inv.step_iretq hl hs, rfl, rfl⟩
  case start     => exact fun hl => by rw [inv.step_start hl]; rfl

-- A process makes a system call, and is interrupted afterwards.
theorem accepted_of_syscall :
    ∃ σ tr σ', install 0xffff800000001000 (init 0xffff800000001000 0 Memory.zero) = some (σ, tr) ∧
      Execution (step (tableRegister 0xffff800000001000) starRegister) Execution.Free σ
        [.start, .syscall, .interrupt, .iretq, .sysretq, .interrupt] σ' ∧
      σ'.saved.length = 1 ∧ Accepted 0xffff800000001000 σ' := by
  have h : (install 0xffff800000001000 (init 0xffff800000001000 0 Memory.zero)).any fun x =>
      ((Execution.run (step (tableRegister 0xffff800000001000) starRegister) x.fst
        [.start, .syscall, .interrupt, .iretq, .sysretq, .interrupt]).map (·.saved.length)) == some 1 := by decide
  obtain ⟨⟨σ, tr⟩, hi, h⟩ := (Option.any_eq_true ..).mp h
  obtain ⟨σ', hr, hl⟩ := Option.map_eq_some_iff.mp (beq_iff_eq.mp h)
  have e := Execution.of_run hr
  exact ⟨σ, tr, σ', hi, e, hl, accepted hi e⟩

end Segments.Machine
