import Xesual.Process.Theorems.Allocation

namespace ProcessManagement.Allocation

open VirtualMemoryManagement (Platform PageTableRef)

variable {π : Platform} {KernelPageTable : PageTableRef} {σ σ' : System} {p : Slot} {c : Call}

-- If nothing has belonged to an element of a list before, then only what belongs to it now is added.
theorem perm_flatMap {α β : Type*} {l : List α} {f g : α → List β} {a : α} (hl : l.Nodup) (ha : a ∈ l)
    (hf : f a = []) (h : ∀ b, b ≠ a → g b = f b) : (l.flatMap g).Perm (g a ++ l.flatMap f) := by
  induction l
  case nil => cases ha
  case cons b l ih =>
    have ⟨hb, hl⟩ := List.nodup_cons.mp hl
    simp only [List.flatMap_cons]
    cases List.mem_cons.mp ha
    case inl he =>
      have hg : l.flatMap g = l.flatMap f := List.flatMap_congr fun c hc => h c fun hn => hb (he ▸ hn ▸ hc)
      rw [← he, hf, hg, List.nil_append]
    case inr ha =>
      rw [h b fun he => hb (he ▸ ha)]
      refine ((ih hl ha).append_left _).trans ?_
      rw [← List.append_assoc, ← List.append_assoc]
      exact List.perm_append_comm.append_right _

namespace System

theorem allocateProcess_of_none (h : σ.findUnused = none) : σ.allocateProcess π KernelPageTable = (σ, none) := by
  rw [allocateProcess, scan_of_none h]

section Reserved

variable (h : σ.findUnused = some p)
include h

theorem scan_allocated : (σ.scan π KernelPageTable).fst.memory.allocated = σ.memory.allocated + 1 := by
  rw [scan_eq h]
  rfl

theorem scan_taken : (σ.scan π KernelPageTable).fst.taken = (σ.take (π.page σ.memory.allocated)).taken := by
  rw [scan_eq h]
  rfl

theorem scan_copied : (σ.scan π KernelPageTable).fst.copied = π.page σ.memory.allocated :: σ.copied := by
  rw [scan_eq h]
  rfl

theorem scan_pageTable : ((σ.scan π KernelPageTable).fst.table p).pageTable = π.page σ.memory.allocated := by
  rw [scan_eq h]
  simp only [modify_self]

-- Without a kernel stack, the slot is not in use any more.
theorem allocateProcess_of_failure (h0 : π.page (σ.memory.allocated + 1) = 0) :
    σ.allocateProcess π KernelPageTable =
      (((σ.scan π KernelPageTable).fst.setKernelStack π p).abandon p, none) := by
  simp only [allocateProcess, scan_snd h, setKernelStack_kernelStack, VirtualMemoryManagement.allocatePage,
    scan_allocated h, h0, ↓reduceIte]

theorem allocateProcess_of_success (h0 : π.page (σ.memory.allocated + 1) ≠ 0) :
    σ.allocateProcess π KernelPageTable =
      let stackPointer := π.page (σ.memory.allocated + 1) + 4096 - 22 * 8
      ((((σ.scan π KernelPageTable).fst.setKernelStack π p).setTrapFrame p stackPointer).setKernelTask p
        (stackPointer - 8 - 7 * 8), some p) := by
  simp only [allocateProcess, scan_snd h, setKernelStack_kernelStack, VirtualMemoryManagement.allocatePage,
    scan_allocated h, h0, ↓reduceIte]

theorem allocateProcess_copied :
    (σ.allocateProcess π KernelPageTable).fst.copied = π.page σ.memory.allocated :: σ.copied := by
  by_cases h0 : π.page (σ.memory.allocated + 1) = 0
  case pos => rw [allocateProcess_of_failure h h0]; exact scan_copied h
  case neg => rw [allocateProcess_of_success h h0]; exact scan_copied h

theorem allocateProcess_taken : (σ.allocateProcess π KernelPageTable).fst.taken =
    ((σ.take (π.page σ.memory.allocated)).take (π.page (σ.memory.allocated + 1))).taken := by
  have ht : ((σ.scan π KernelPageTable).fst.setKernelStack π p).taken =
      ((σ.take (π.page σ.memory.allocated)).take (π.page (σ.memory.allocated + 1))).taken := by
    simp only [setKernelStack, VirtualMemoryManagement.allocatePage, modify_taken, take, scan_allocated h,
      scan_taken h]
  by_cases h0 : π.page (σ.memory.allocated + 1) = 0
  case pos => rw [allocateProcess_of_failure h h0]; exact ht
  case neg => rw [allocateProcess_of_success h h0]; exact ht

end Reserved

theorem pages_of_unused (h : (σ.table p).state = .unused) : σ.pages p = [] :=
  if_pos h

theorem pages_congr (h : σ'.table p = σ.table p) : σ'.pages p = σ.pages p := by
  rw [pages, pages, h]

-- If both allocations succeed, then the two pages belong to the slot.
theorem balanced_allocateProcess (hb : σ.Balanced) (h : σ.findUnused = some p)
    (h0 : π.page σ.memory.allocated ≠ 0) (h1 : π.page (σ.memory.allocated + 1) ≠ 0) :
    (σ.allocateProcess π KernelPageTable).fst.Balanced := by
  have hp : (σ.allocateProcess π KernelPageTable).fst.pages p =
      [π.page σ.memory.allocated, π.page (σ.memory.allocated + 1)] := by
    rw [allocateProcess_of_success h h1]
    simp [pages, setKernelTask, setTrapFrame, setKernelStack, VirtualMemoryManagement.allocatePage,
      scan_allocated h, scan_pageTable h, scan_state h]
  have hq q (hq : q ≠ p) : (σ.allocateProcess π KernelPageTable).fst.pages q = σ.pages q := by
    apply pages_congr
    rw [allocateProcess_of_success h h1]
    simp only [within_setKernelTask q hq, within_setTrapFrame q hq, within_setKernelStack q hq, within_scan h q hq]
  have hl := perm_flatMap (List.nodup_finRange 64) (List.mem_finRange p)
    (pages_of_unused <| findUnused_eq_some h) hq
  rw [Balanced, allocateProcess_taken h]
  simp only [take, h0, h1, ↓reduceIte]
  refine .trans ?_ hl.symm
  rw [hp]
  exact (List.Perm.swap ..).trans <| hb.append_left [_, _]

end System

theorem allocateAccounted_iff (hb : σ.Balanced) (hc : 0 ∉ σ.copied) :
    σ.Accounted π KernelPageTable .allocateProcess ↔ σ.Served π .allocateProcess := by
  cases hs : σ.findUnused
  case none =>
    have he : σ.allocateProcess π KernelPageTable = (σ, none) := System.allocateProcess_of_none hs
    refine iff_of_true ?_ (.inl hs)
    constructor
    case balanced     => rwa [he]
    case nullptr      => rw [he]; exact fun _ => ⟨rfl, fun _ => rfl⟩
    case reported     => exact fun h => absurd hs h
    case dereferenced => rwa [he]
  case some p =>
    have hd : (σ.allocateProcess π KernelPageTable).fst.copied = π.page σ.memory.allocated :: σ.copied :=
      System.allocateProcess_copied hs
    constructor
    case mp =>
      intro h
      have h0 : π.page σ.memory.allocated ≠ 0 := by
        intro h0
        apply h.dereferenced
        rw [hd, h0]
        exact List.mem_cons_self
      refine .inr ⟨h0, fun h1 => ?_⟩
      have hr : (σ.allocateProcess π KernelPageTable).snd = none := by rw [System.allocateProcess_of_failure hs h1]
      have ht := (h.nullptr hr).left
      rw [System.allocateProcess_taken hs] at ht
      simp only [System.take, h0, h1, ↓reduceIte, List.cons_ne_self] at ht
    case mpr =>
      intro h
      have ⟨h0, h1⟩ := h.resolve_left (by simp [hs])
      constructor
      case balanced     => exact System.balanced_allocateProcess hb hs h0 h1
      case nullptr      => rw [System.allocateProcess_of_success hs h1]; exact nofun
      case reported     => exact fun _ h => absurd h h0
      case dereferenced => rw [hd]; exact List.not_mem_cons_of_ne_of_not_mem h0.symm hc

-- A slot has two pages, but only one of them is given back.
theorem not_freeAccounted : ¬σ.Accounted π KernelPageTable (.freeProcess p) := by
  intro h
  have hl := h.freed.length_eq
  simp only [System.freeProcess, List.length_cons, System.modify_taken, List.length_erase] at hl
  split at hl <;> omega

namespace System

structure Invariant (σ : System) : Prop where
  balanced : σ.Balanced
  copied   : 0 ∉ σ.copied

theorem start_invariant {memory : VirtualMemoryManagement.State} : (start memory).Invariant where
  balanced := by
    have h : (List.finRange 64).flatMap (start memory).pages = [] :=
      List.flatMap_eq_nil_iff.mpr fun _ _ => pages_of_unused rfl
    rw [Balanced, h]
    exact .nil
  copied := nofun

theorem accounted_iff_served (inv : σ.Invariant) : σ.Accounted π KernelPageTable c ↔ σ.Served π c := by
  cases c
  case allocateProcess => exact allocateAccounted_iff inv.balanced inv.copied
  case freeProcess p   => exact iff_of_false not_freeAccounted id

theorem step_invariant (inv : σ.Invariant) (hs : σ.Served π c) (h : step π KernelPageTable σ c = some σ') :
    σ'.Invariant := by
  cases c
  case allocateProcess =>
    have ha : σ.Accounted π KernelPageTable .allocateProcess := (accounted_iff_served inv).mpr hs
    cases h
    exact ⟨ha.balanced, ha.dereferenced⟩
  case freeProcess => cases hs

-- In a sequence of calls, the pages are accounted for as long as no slot is freed, and all allocations succeed.
theorem accounted_iff {memory : VirtualMemoryManagement.State} {cs : List Call}
    (e : Execution (step π KernelPageTable) Execution.Free (start memory) cs σ) :
    (∀ cs' c σ', cs' ++ [c] <+: cs → Execution (step π KernelPageTable) Execution.Free (start memory) cs' σ' →
      σ'.Accounted π KernelPageTable c) ↔
    Execution (step π KernelPageTable) (Served π) (start memory) cs σ :=
  e.steps_iff start_invariant step_invariant fun inv _ => accounted_iff_served inv

instance : Decidable (σ.Served π c) :=
  match c with
  | .allocateProcess => inferInstanceAs <| Decidable (_ ∨ _)
  | .freeProcess _   => inferInstanceAs <| Decidable False

-- A platform whose free pages are `0x1000`, `0x2000`, ...
def consecutivePages : Platform where
  HigherHalfDirectMapOffset := 0
  page k                    := 0x1000 * BitVec.ofNat 64 (k + 1)

-- Two processes are created.
theorem accounted_iff_twice : ∃ σ,
    Execution (step consecutivePages 0x100000) Execution.Free
      (start ⟨fun _ _ => .zero, 0⟩) [.allocateProcess, .allocateProcess] σ ∧
    σ.taken = [0x4000, 0x3000, 0x2000, 0x1000] ∧
    ∀ cs' c σ', cs' ++ [c] <+: [.allocateProcess, .allocateProcess] →
      Execution (step consecutivePages 0x100000) Execution.Free
        (start ⟨fun _ _ => .zero, 0⟩) cs' σ' →
      σ'.Accounted consecutivePages 0x100000 c := by
  have hr : (Execution.runIf (step consecutivePages 0x100000) (Served consecutivePages)
      (start ⟨fun _ _ => .zero, 0⟩) [.allocateProcess, .allocateProcess]).map (·.taken) =
      some [0x4000, 0x3000, 0x2000, 0x1000] := by decide
  have ⟨σ, hr, ht⟩ := Option.map_eq_some_iff.mp hr
  have e := Execution.of_runIf hr
  exact ⟨σ, e.free, ht, (accounted_iff e.free).mpr e⟩

-- After a process has been created, its slot is freed.
theorem not_accounted : ¬∀ (π : Platform) (KernelPageTable : PageTableRef) (memory : VirtualMemoryManagement.State)
    (cs : List Call) (σ : System), Execution (step π KernelPageTable) Execution.Free (start memory) cs σ →
    ∀ cs' c σ', cs' ++ [c] <+: cs → Execution (step π KernelPageTable) Execution.Free (start memory) cs' σ' →
      σ'.Accounted π KernelPageTable c := by
  intro h
  have hr : (Execution.run (step consecutivePages 0x100000)
      (start ⟨fun _ _ => .zero, 0⟩) [.allocateProcess, .freeProcess 0]).map (·.taken) = some [0x1000] := by decide
  have ⟨σ, hr, _⟩ := Option.map_eq_some_iff.mp hr
  have e : Execution (step _ _) _ _ ([Call.allocateProcess] ++ [.freeProcess 0]) σ := Execution.of_run hr
  have ⟨σ', e', _⟩ := e.snoc_inv
  exact not_freeAccounted <| h _ _ _ _ σ e [.allocateProcess] (.freeProcess 0) σ' (List.prefix_refl _) e'

end System
end ProcessManagement.Allocation
