import Xesual.Boot.Theorems.Processors
import Xesual.Segments.Theorems.Machine

-- The ports that a process has access to. `iomapBase` is never set, so that the processor takes the task state segment
-- itself for the map, and its only part that is not zero is the address of the stack.

open Memory

namespace KernelMain.Processors

open ProcessManagement

variable {σ : Processors} {resp : SmpResponse} {page : BitVec 64} {i j n : Nat}

-- The table of a processor is not written to by `initializeProcessors`, except that the whole page is cleared.
theorem eqOn_initializeProcessor (hi : i < 18) (hj : j < 18) : Set.EqOn (initializeProcessor resp σ j).memory σ.memory
    (CPUState.bytes (σ.cpu i) .table) := by
  by_cases hij : i = j
  case pos =>
    have h {f : CPUState.Member} (hf : .table ≠ f) :
        Disjoint (CPUState.bytes (σ.cpu i) .table) (CPUState.bytes (σ.cpu i) f) := CPUState.disjoint_bytes hf
    rw [initializeProcessor_memory, ← hij]
    refine .trans (Changes.store.eqOn ?_) (.trans (Changes.store32.eqOn ?_) (Changes.store32.eqOn ?_))
    case refine_1 => exact h (f := .currentProcess) (by decide)
    case refine_2 => exact h (f := .cliCount) (by decide)
    case refine_3 => exact h (f := .apicID) (by decide)
  case neg =>
    have hd := disjoint_cpu (σ := σ) hi hj hij
    exact changes_initializeProcessor.eqOn (hd.mono_left CPUState.bytes_subset)

theorem eqOn_loop (hi : i < 18) (hn : n ≤ 18) : Set.EqOn ((List.range n).foldl (initializeProcessor resp) σ).memory
    σ.memory (CPUState.bytes (σ.cpu i) .table) := by
  induction n
  case zero => exact Set.eqOn_refl ..
  case succ n ih =>
    rw [List.range_succ, List.foldl_append, List.foldl_cons, List.foldl_nil]
    refine .trans ?_ (ih (by omega))
    have hcpu : ((List.range n).foldl (initializeProcessor resp) σ).cpu i = σ.cpu i := loop_cpu
    rw [← hcpu]
    exact eqOn_initializeProcessor hi (by omega)

theorem initializeProcessors_table (h : resp.cpuCount.toNat ≤ 18) (hi : i < resp.cpuCount.toNat) :
    Set.EqOn (initializeProcessors page resp σ).memory zero
      (CPUState.bytes ((initializeProcessors page resp σ).cpu i) .table) := by
  have hcpu : (initializeProcessors page resp σ).cpu i = { σ with cpus := page }.cpu i := by
    rw [cpu, initializeProcessors_cpus, cpu]
  have hsub : CPUState.bytes ({ σ with cpus := page }.cpu i) .table ⊆ region page 4096 :=
    CPUState.bytes_subset.trans (cpu_subset (σ := { σ with cpus := page }) (by omega))
  rw [hcpu]
  exact .trans (eqOn_loop (by omega) h) fun k hk => if_pos (hsub hk)

end KernelMain.Processors

namespace Segments

open Table
open ProcessManagement KernelMain

variable {table stack : BitVec 64} {m m' : Memory} {σ σ' : Machine} {tr : TaskRegister} {port : BitVec 16}
  {as : List Action} {i j : Nat}

section Segment

theorem changes_stores {writes : List (Nat × BitVec 64)} (h : ∀ write ∈ writes, write.fst ∈ words) :
    Changes m (stores table writes m) (region table 72) := by
  induction writes generalizing m
  case nil => exact .refl
  case cons write writes ih =>
    obtain ⟨hw, hs⟩ := List.forall_mem_cons.mp h
    exact (changes_store hw).trans (ih hs)

-- The bits of the task state segment after `Table::init`.
theorem getLsbD_init (hz : Set.EqOn m zero (region (table + 72) 104)) (hj : j < 104) (hi : i < 8) :
    (init table stack m (table + 72 + .ofNat 64 j)).getLsbD i =
      (decide (4 ≤ j ∧ j < 12) && stack.getLsbD (8 * (j - 4) + i)) := by
  have hinit : init table stack m = (stores table ((writes table stack).take 9) m).store (table + 76) stack := rfl
  have hoffset : (table + 72 + .ofNat 64 j - (table + 76)).toNat = (BitVec.ofNat 64 j - 4).toNat := by
    congr 1
    bv_omega
  by_cases hs : 4 ≤ j ∧ j < 12
  case pos =>
    have hj' : (table + 72 + .ofNat 64 j - (table + 76)).toNat = j - 4 := by
      rw [hoffset]
      bv_omega
    rw [hinit, Memory.store, Bytes.store, hj', if_pos (by omega), BitVec.getLsbD_ofNat, Nat.sub_zero]
    have hp : (256 : Nat) ^ (j - 4) = 2 ^ (8 * (j - 4)) := by rw [Nat.pow_mul]
    rw [hp, Nat.testBit_div_two_pow, BitVec.getLsbD]
    simp [hs, hi, Nat.add_comm]
  case neg =>
    have hk : table + 72 + .ofNat 64 j ∉ region (table + 76) 8 := by
      simp only [region, Set.mem_ofPred_eq, hoffset]
      bv_omega
    have hk' : table + 72 + .ofNat 64 j ∈ region (table + 72) 104 := by
      simp only [region, Set.mem_ofPred_eq]
      bv_omega
    have hw : ∀ write ∈ (writes table stack).take 9, write.fst ∈ words := by
      have h : ∀ i ∈ ((writes table stack).take 9).map Prod.fst, i ∈ words := by
        have hoffsets : ((writes table stack).take 9).map Prod.fst = words := rfl
        exact hoffsets ▸ fun _ => id
      exact fun write hw => h _ (List.mem_map_of_mem hw)
    rw [hinit, store_of_not_mem hk, eqOn_of_changes (changes_stores hw) hk', hz hk']
    simp [hs, zero]

end Segment

-- Whether a port is covered by the task state segment, and not by a bit of the address of the stack that is set.
def Exposed (stack : BitVec 64) (port : BitVec 16) : Prop :=
  port.toNat < 832 ∧ ¬(32 ≤ port.toNat ∧ port.toNat < 96 ∧ stack.getLsbD (port.toNat - 32))

theorem grants_of_eqOn (hz : Set.EqOn m zero (region (table + 72) 104))
    (h : Set.EqOn m' (init table stack m) (region (table + 72) 104)) :
    TaskRegister.grants ⟨table + 72, 104⟩ m' port ↔ Exposed stack port := by
  have hbit {i j : Nat} (hj : j < 104) (hi : i < 8) : (m' (table + 72 + .ofNat 64 j)).getLsbD i =
      (decide (4 ≤ j ∧ j < 12) && stack.getLsbD (8 * (j - 4) + i)) := by
    have hk : table + 72 + .ofNat 64 j ∈ region (table + 72) 104 := by
      simp only [region, Set.mem_ofPred_eq]
      bv_omega
    rw [h hk, getLsbD_init hz hj hi]
  -- `iomapBase`
  have hmap : m'.loadBytes (table + 72 + 102) 2 = 0 := by
    have hzero : Set.EqOn m' zero (region (table + 72 + 102) 2) := by
      intro k hk
      simp only [region, Set.mem_ofPred_eq] at hk
      have hk' : k = table + 72 + .ofNat 64 (102 + (k - (table + 72 + 102)).toNat) := by bv_omega
      apply BitVec.eq_of_getLsbD_eq
      intro i hi
      rw [hk', hbit (by omega) hi, decide_eq_false (by omega), Bool.false_and]
      exact BitVec.getLsbD_zero.symm
    rw [loadBytes_congr (by decide) hzero]
    exact Bytes.load_of_forall_zero fun _ => rfl
  simp only [TaskRegister.grants, hmap, Nat.zero_add, Exposed, Bool.and_eq_true, decide_eq_true_eq, Bool.not_eq_true']
  by_cases hp : port.toNat < 832
  case neg =>
    have hl : ¬port.toNat / 8 + 1 ≤ 104 := by omega
    simp only [hp, hl, false_and]
  case pos =>
    have hl : port.toNat / 8 + 1 ≤ 104 := by omega
    rw [hbit hl (by omega)]
    by_cases hs : 32 ≤ port.toNat ∧ port.toNat < 96
    case neg =>
      have hs' : ¬(4 ≤ port.toNat / 8 ∧ port.toNat / 8 < 12) := by omega
      have hs'' : ¬(32 ≤ port.toNat ∧ port.toNat < 96 ∧ stack.getLsbD (port.toNat - 32)) := fun h => hs ⟨h.1, h.2.1⟩
      simp only [hp, hl, hs', hs'', decide_false, Bool.false_and, not_false_eq_true, and_self]
    case pos =>
      have hs' : 4 ≤ port.toNat / 8 ∧ port.toNat / 8 < 12 := by omega
      have hindex : 8 * (port.toNat / 8 - 4) + port.toNat % 8 = port.toNat - 32 := by omega
      simp only [hp, hl, hs, hs', hindex, decide_true, and_self, Bool.true_and, true_and, Bool.not_eq_true]

section SharedMain

variable {cpu : BitVec 64}

theorem sharedMain_eq_some (h : sharedMain cpu stack m = some (σ, tr)) :
    install (cpu + CPUState.offsetof .table) (init (cpu + CPUState.offsetof .table) stack
      (m.store (cpu + CPUState.offsetof .interruptStack) stack)) = some (σ, tr) := by
  simp only [sharedMain, load_store] at h
  split at h
  case isTrue  => contradiction
  case isFalse => exact h

-- The task state segment is still zero when `Table::init` is called.
theorem eqOn_zero (h : Set.EqOn m zero (CPUState.bytes cpu .table)) :
    Set.EqOn (m.store (cpu + CPUState.offsetof .interruptStack) stack) zero
      (region (cpu + CPUState.offsetof .table + 72) 104) := by
  have hsub : region (cpu + CPUState.offsetof .table + 72) 104 ⊆ CPUState.bytes cpu .table := by
    have hsize : (CPUState.type .table).size = 176 := by decide
    rw [CPUState.bytes, hsize]
    apply region_subset
    bv_omega
  have hd : Disjoint (CPUState.bytes cpu .table) (CPUState.bytes cpu .interruptStack) :=
    CPUState.disjoint_bytes (by decide)
  exact (Changes.store.eqOn (hd.mono_left hsub)).trans (h.mono hsub)

-- A processor whose table has been set up by `SharedMain`, no matter what is executed afterwards.
theorem grants_iff_exposed {p : Processors} {resp : SmpResponse} {page : BitVec 64} (hn : resp.cpuCount.toNat ≤ 18)
    (hi : i < resp.cpuCount.toNat) (hc : cpu = (p.initializeProcessors page resp).cpu i)
    (hm : Set.EqOn m (p.initializeProcessors page resp).memory (CPUState.bytes cpu .table))
    (hs : sharedMain cpu stack m = some (σ, tr))
    (e : Execution (Machine.step (tableRegister (cpu + CPUState.offsetof .table)) starRegister) Execution.Free σ as σ') :
    tr.grants σ'.memory port ↔ Exposed stack port := by
  have hz := hm.trans (hc ▸ Processors.initializeProcessors_table hn hi)
  have hi := sharedMain_eq_some hs
  have inv := e.invariant (Machine.installed_invariant hi) fun inv _ => Machine.step_invariant inv
  have htr : tr = ⟨cpu + CPUState.offsetof .table + 72, 104⟩ := by
    obtain ⟨m', hm', -⟩ : ∃ m', install _ (init _ stack _) = some (⟨m', 8, 0x10, []⟩, _) ∧ _ ∧ _ := exists_install
    rw [hm'] at hi
    cases hi
    rfl
  rw [htr]
  exact grants_of_eqOn (eqOn_zero hz) inv.segment

-- The second one of two processors. The keyboard controller at 0x64 can be used by a process, for example to reset the
-- machine, and the first interrupt controller at 0x20 too.
theorem grants_iff_exposed_keyboard : ∃ cpu m σ tr σ',
    sharedMain cpu 0xffff800000010000 m = some (σ, tr) ∧
    Execution (Machine.step (tableRegister (cpu + CPUState.offsetof .table)) starRegister) Execution.Free σ [.start] σ' ∧
    tr.grants σ'.memory 0x64 ∧ tr.grants σ'.memory 0x20 ∧ ¬tr.grants σ'.memory 0x30 ∧ ¬tr.grants σ'.memory 0x3f8 := by
  let p := Processors.initializeProcessors 0xffff800000001000 ⟨0, 2, .ofNat 32⟩ ⟨zero, 0, 0, [], fun _ => 0⟩
  have h : (sharedMain (p.cpu 1) 0xffff800000010000 p.memory).any fun x => (Execution.run (Machine.step
      (tableRegister (p.cpu 1 + CPUState.offsetof .table)) starRegister) x.fst [.start]).isSome := by decide
  obtain ⟨⟨σ, tr⟩, hs, h⟩ := (Option.any_eq_true ..).mp h
  obtain ⟨σ', hr⟩ := Option.isSome_iff_exists.mp h
  have e := Execution.of_run hr
  have hg (port : BitVec 16) : tr.grants σ'.memory port ↔ Exposed 0xffff800000010000 port :=
    grants_iff_exposed (by decide) (by decide) rfl (Set.eqOn_refl ..) hs e
  refine ⟨p.cpu 1, p.memory, σ, tr, σ', hs, e, ?_⟩
  simp only [hg, Exposed]
  decide

end SharedMain
end Segments
