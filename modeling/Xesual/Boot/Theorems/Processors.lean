import Xesual.Boot.Processors
import Xesual.Traps.Frames

open Memory

namespace ProcessManagement.CPUState

variable {f g : Member} {a : BitVec 64}

theorem sizeof_eq : sizeof = 224 := by decide

-- The offsets that the assembly code relies on.
theorem offsetof_userStack : offsetof .userStack = Traps.UserStackOffset := by decide
theorem offsetof_interruptStack : offsetof .interruptStack = Traps.KernelInterruptStackOffset := by decide

theorem mem_members : f ∈ members := by
  cases f <;> simp [members]

theorem align_pos (f : Member) : 0 < (type f).align := by
  cases f <;> decide

theorem offsetof_add_le : Layout.offsetof type members f + (type f).size ≤ sizeof :=
  Layout.offsetof_add_size_le align_pos mem_members

theorem toNat_offsetof : (offsetof f).toNat = Layout.offsetof type members f := by
  have h := offsetof_add_le (f := f)
  rw [sizeof_eq] at h
  rw [offsetof, BitVec.toNat_ofNat, Nat.mod_eq_of_lt (by omega)]

-- The bytes of a member.
def bytes (a : BitVec 64) (f : Member) : Set (BitVec 64) :=
  region (a + offsetof f) (type f).size

theorem bytes_subset : bytes a f ⊆ region a sizeof := by
  have h := offsetof_add_le (f := f)
  rw [← toNat_offsetof] at h
  apply region_subset
  bv_omega

theorem disjoint_bytes (h : f ≠ g) : Disjoint (bytes a f) (bytes a g) := by
  have hf := offsetof_add_le (f := f)
  have hg := offsetof_add_le (f := g)
  have h := Layout.offsetof_add_size_le_or align_pos mem_members mem_members h
  rw [← toNat_offsetof, ← toNat_offsetof] at h
  rw [← toNat_offsetof, sizeof_eq] at hf hg
  cases h
  case inl h => exact disjoint_region_add h (by omega)
  case inr h => exact (disjoint_region_add h (by omega)).symm

end ProcessManagement.CPUState

namespace KernelMain.Processors

open ProcessManagement

variable {σ : Processors} {resp : SmpResponse} {page : BitVec 64} {id : BitVec 32} {i j n : Nat}

-- A page has room for 18 entries.
section Entries

theorem toNat_offset (h : i ≤ 18) : (BitVec.ofNat 64 (CPUState.sizeof * i)).toNat = 224 * i := by
  rw [CPUState.sizeof_eq, BitVec.toNat_ofNat, Nat.mod_eq_of_lt (by omega)]

theorem cpu_sub : σ.cpu i - σ.cpus = .ofNat 64 (CPUState.sizeof * i) := by
  rw [cpu, BitVec.add_comm, BitVec.add_sub_cancel]

theorem cpu_subset (h : i < 18) : region (σ.cpu i) CPUState.sizeof ⊆ region σ.cpus 4096 := by
  apply region_subset
  rw [cpu_sub, toNat_offset (Nat.le_of_lt h), CPUState.sizeof_eq]
  omega

theorem not_cpu_subset : ¬region (σ.cpu 18) CPUState.sizeof ⊆ region σ.cpus 4096 := by
  intro h
  have hc := toNat_offset (Nat.le_refl 18)
  rw [← cpu_sub (σ := σ)] at hc
  have hk : σ.cpu 18 + 64 ∈ region (σ.cpu 18) CPUState.sizeof := by
    rw [region, CPUState.sizeof_eq, Set.mem_ofPred_eq]
    bv_omega
  have hk := h hk
  rw [region, Set.mem_ofPred_eq] at hk
  bv_omega

theorem disjoint_cpu (hi : i < 18) (hj : j < 18) (h : i ≠ j) :
    Disjoint (region (σ.cpu i) CPUState.sizeof) (region (σ.cpu j) CPUState.sizeof) := by
  have h₁ := toNat_offset (Nat.le_of_lt hi)
  have h₂ := toNat_offset (Nat.le_of_lt hj)
  have hs := CPUState.sizeof_eq
  cases Nat.lt_or_gt_of_ne h
  case inl h => exact disjoint_region_add (by omega) (by omega)
  case inr h => exact (disjoint_region_add (by omega) (by omega)).symm

end Entries

section Loop

theorem initializeProcessor_memory : (initializeProcessor resp σ i).memory =
    ((σ.memory.store32 (σ.cpu i + CPUState.offsetof .apicID) (resp.lapicID i)).store32
      (σ.cpu i + CPUState.offsetof .cliCount) 1).store (σ.cpu i + CPUState.offsetof .currentProcess) 0 := by
  unfold initializeProcessor
  split <;> rfl

theorem initializeProcessor_cpus : (initializeProcessor resp σ i).cpus = σ.cpus := by
  unfold initializeProcessor
  split <;> rfl

theorem initializeProcessor_cpuCount : (initializeProcessor resp σ i).cpuCount = σ.cpuCount := by
  unfold initializeProcessor
  split <;> rfl

-- An iteration only writes to the entry of its processor.
theorem changes_initializeProcessor :
    σ.memory.Changes (initializeProcessor resp σ i).memory (region (σ.cpu i) CPUState.sizeof) := by
  rw [initializeProcessor_memory]
  refine .trans (.trans (Changes.store32.mono ?_) (Changes.store32.mono ?_)) (Changes.store.mono ?_)
  case refine_1 => exact CPUState.bytes_subset (f := .apicID)
  case refine_2 => exact CPUState.bytes_subset (f := .cliCount)
  case refine_3 => exact CPUState.bytes_subset (f := .currentProcess)

-- It sets the id that `thisCPU` looks for.
theorem apicID_initializeProcessor :
    (initializeProcessor resp σ i).memory.load32 (σ.cpu i + CPUState.offsetof .apicID) = resp.lapicID i := by
  have h₁ : Disjoint (CPUState.bytes (σ.cpu i) .apicID) (CPUState.bytes (σ.cpu i) .currentProcess) :=
    CPUState.disjoint_bytes (by decide)
  have h₂ : Disjoint (CPUState.bytes (σ.cpu i) .apicID) (CPUState.bytes (σ.cpu i) .cliCount) :=
    CPUState.disjoint_bytes (by decide)
  rw [initializeProcessor_memory, Changes.store.load32 h₁, Changes.store32.load32 h₂]
  exact load32_store32

-- The first `n` iterations.
theorem loop_cpus : ((List.range n).foldl (initializeProcessor resp) σ).cpus = σ.cpus := by
  induction n
  case zero    => rfl
  case succ ih => rw [List.range_succ, List.foldl_append, List.foldl_cons, List.foldl_nil, initializeProcessor_cpus, ih]

theorem loop_cpuCount : ((List.range n).foldl (initializeProcessor resp) σ).cpuCount = σ.cpuCount := by
  induction n
  case zero    => rfl
  case succ ih =>
    rw [List.range_succ, List.foldl_append, List.foldl_cons, List.foldl_nil, initializeProcessor_cpuCount, ih]

theorem loop_cpu : ((List.range n).foldl (initializeProcessor resp) σ).cpu i = σ.cpu i := by
  rw [cpu, cpu, loop_cpus]

theorem changes_loop (h : n ≤ 18) :
    σ.memory.Changes ((List.range n).foldl (initializeProcessor resp) σ).memory (region σ.cpus 4096) := by
  induction n
  case zero => exact .refl
  case succ n ih =>
    rw [List.range_succ, List.foldl_append, List.foldl_cons, List.foldl_nil]
    refine (ih (by omega)).trans (changes_initializeProcessor.mono ?_)
    rw [loop_cpu]
    exact cpu_subset h

theorem apicID_loop (h : n ≤ 18) (hi : i < n) : ((List.range n).foldl (initializeProcessor resp) σ).memory.load32
    (σ.cpu i + CPUState.offsetof .apicID) = resp.lapicID i := by
  induction n
  case zero => omega
  case succ n ih =>
    rw [List.range_succ, List.foldl_append, List.foldl_cons, List.foldl_nil]
    have hcpu (j : Nat) : ((List.range n).foldl (initializeProcessor resp) σ).cpu j = σ.cpu j := loop_cpu
    have ih := ih (by omega)
    generalize (List.range n).foldl (initializeProcessor resp) σ = σ' at *
    rw [← hcpu i]
    by_cases hin : i = n
    case pos => rw [hin, apicID_initializeProcessor]
    case neg =>
      -- The entries of the other processors are not affected.
      have hd := disjoint_cpu (σ := σ') (show i < 18 by omega) (show n < 18 by omega) hin
      have hd := hd.mono_left (CPUState.bytes_subset (f := .apicID))
      rw [changes_initializeProcessor.load32 hd, hcpu i, ih (by omega)]

end Loop

theorem initializeProcessors_cpus : (initializeProcessors page resp σ).cpus = page :=
  loop_cpus

theorem initializeProcessors_cpuCount :
    (initializeProcessors page resp σ).cpuCount.toNat = resp.cpuCount.toNat % 2 ^ 32 := by
  rw [initializeProcessors, loop_cpuCount, BitVec.toNat_setWidth]

-- Up to 18 processors, nothing but the page is written to.
theorem changes_initializeProcessors (h : resp.cpuCount.toNat ≤ 18) :
    σ.memory.Changes (initializeProcessors page resp σ).memory (region page 4096) :=
  Changes.trans Changes.fill (changes_loop h)

-- Every processor finds its entry, which is the first one with its id.
theorem thisCPU_initializeProcessors (h : resp.cpuCount.toNat ≤ 18) : (initializeProcessors page resp σ).thisCPU id =
    ((List.range resp.cpuCount.toNat).find? (fun i => resp.lapicID i = id)).elim 0
      (fun i => page + .ofNat 64 (CPUState.sizeof * i)) := by
  have hcount : (initializeProcessors page resp σ).cpuCount.toNat = resp.cpuCount.toNat := by
    rw [initializeProcessors_cpuCount, Nat.mod_eq_of_lt (by omega)]
  have hcpu : (initializeProcessors page resp σ).cpu = fun i => page + .ofNat 64 (CPUState.sizeof * i) := by
    funext i
    rw [cpu, initializeProcessors_cpus]
  have hid (i : Nat) (hi : i < resp.cpuCount.toNat) : (initializeProcessors page resp σ).memory.load32
      ((initializeProcessors page resp σ).cpu i + CPUState.offsetof .apicID) = resp.lapicID i := by
    rw [hcpu]
    exact apicID_loop h hi
  have hfind : (List.range resp.cpuCount.toNat).find? (fun i => (initializeProcessors page resp σ).memory.load32
      ((initializeProcessors page resp σ).cpu i + CPUState.offsetof .apicID) = id) =
        (List.range resp.cpuCount.toNat).find? (fun i => resp.lapicID i = id) :=
    List.find?_congr fun i hi => by rw [hid i (List.mem_range.mp hi)]
  rw [thisCPU, hcount, hfind, hcpu]

-- If there are at most 18 processors and their ids are different, then each one of them finds an entry of its own, and
-- no other memory has been written to.
theorem exclusive_thisCPU (h : resp.cpuCount.toNat ≤ 18)
    (hd : ∀ i < resp.cpuCount.toNat, ∀ j < resp.cpuCount.toNat, resp.lapicID i = resp.lapicID j → i = j) :
    σ.memory.Changes (initializeProcessors page resp σ).memory (region page 4096) ∧
    ∀ i < resp.cpuCount.toNat,
      (initializeProcessors page resp σ).thisCPU (resp.lapicID i) = page + .ofNat 64 (CPUState.sizeof * i) ∧
      ∀ j < resp.cpuCount.toNat, i ≠ j →
        Disjoint (region ((initializeProcessors page resp σ).thisCPU (resp.lapicID i)) CPUState.sizeof)
          (region ((initializeProcessors page resp σ).thisCPU (resp.lapicID j)) CPUState.sizeof) := by
  have own (i : Nat) (hi : i < resp.cpuCount.toNat) : (initializeProcessors page resp σ).thisCPU (resp.lapicID i) =
      (initializeProcessors page resp σ).cpu i := by
    have hf : (List.range resp.cpuCount.toNat).find? (fun j => resp.lapicID j = resp.lapicID i) = some i := by
      refine List.find?_range_eq_some.mpr ⟨by simp, List.mem_range.mpr hi, fun j hj => ?_⟩
      have hne : resp.lapicID j ≠ resp.lapicID i := fun he => hj.ne (hd j (hj.trans hi) i hi he)
      simpa using hne
    rw [thisCPU_initializeProcessors h, hf, cpu, initializeProcessors_cpus]
    rfl
  refine ⟨changes_initializeProcessors h, fun i hi => ⟨?_, fun j hj hne => ?_⟩⟩
  case refine_1 => rw [own i hi, cpu, initializeProcessors_cpus]
  case refine_2 =>
    rw [own i hi, own j hj]
    exact disjoint_cpu (hi.trans_le h) (hj.trans_le h) hne

-- Three processors with the ids 0, 2 and 4.
def threeProcessors : Processors :=
  initializeProcessors 0xffff800000001000 ⟨0, 3, fun i => .ofNat 32 (2 * i)⟩ ⟨Memory.zero, 0, 0, [], fun _ => 0⟩

theorem exclusive_thisCPU_three : Memory.zero.Changes threeProcessors.memory (region 0xffff800000001000 4096) ∧
    threeProcessors.thisCPU 4 = 0xffff8000000011c0 ∧
    Disjoint (region (threeProcessors.thisCPU 2) CPUState.sizeof)
      (region (threeProcessors.thisCPU 4) CPUState.sizeof) := by
  have ⟨hc, h⟩ : Memory.zero.Changes threeProcessors.memory (region 0xffff800000001000 4096) ∧ _ :=
    exclusive_thisCPU (by decide) (by decide)
  exact ⟨hc, (h 2 (by decide)).left, (h 1 (by decide)).right 2 (by decide) (by decide)⟩

theorem thisCPU_cases : σ.thisCPU id = 0 ∨ ∃ i < σ.cpuCount.toNat, σ.thisCPU id = σ.cpu i := by
  unfold thisCPU
  cases h : (List.range σ.cpuCount.toNat).find?
    (fun i => σ.memory.load32 (σ.cpu i + CPUState.offsetof .apicID) = id)
  case none   => exact .inl rfl
  case some i => exact .inr ⟨i, List.mem_range.mp (List.mem_of_find?_eq_some h), rfl⟩

theorem cpuCount_le (h : σ.Contained σ.cpus) : σ.cpuCount.toNat ≤ 18 := by
  by_contra hlt
  exact not_cpu_subset fun k hk => (h.cpus 18 (Nat.not_le.mp hlt) hk).right

-- The entries lie inside of the page if and only if there is a page, and there are not more than 18 of them.
theorem contained_iff : (initializeProcessors page resp σ).Contained page ↔
    resp.cpuCount.toNat % 2 ^ 32 = 0 ∨ page ≠ 0 ∧ resp.cpuCount.toNat % 2 ^ 32 ≤ 18 := by
  have hcount : (initializeProcessors page resp σ).cpuCount.toNat = _ := initializeProcessors_cpuCount
  have hcpus : (initializeProcessors page resp σ).cpus = page := initializeProcessors_cpus
  generalize initializeProcessors page resp σ = σ' at *
  subst hcpus
  rw [← hcount]
  constructor
  case mp =>
    intro h
    refine or_iff_not_imp_left.mpr fun h0 => ⟨?_, ?_⟩
    case refine_1 =>
      have hk : σ'.cpu 0 ∈ region (σ'.cpu 0) CPUState.sizeof := self_mem_region (by decide)
      exact (h.cpus 0 (Nat.pos_of_ne_zero h0) hk).left
    case refine_2 => exact cpuCount_le h
  case mpr =>
    intro h
    have hsub (i : Nat) (hi : i < σ'.cpuCount.toNat) : region (σ'.cpu i) CPUState.sizeof ⊆ obtained σ'.cpus := by
      have ⟨h0, hle⟩ := h.resolve_left (by omega)
      exact fun k hk => ⟨h0, cpu_subset (by omega) hk⟩
    refine ⟨hsub, fun memory lapicID hne => ?_⟩
    have ⟨i, hi, he⟩ := thisCPU_cases.resolve_left hne
    rw [he]
    exact hsub i hi

-- The entry of the 19th processor does not fit in the page.
theorem not_contained : ¬(initializeProcessors 0xffff800000001000 ⟨0, 19, .ofNat 32⟩
    ⟨Memory.zero, 0, 0, [], fun _ => 0⟩).Contained 0xffff800000001000 := by
  intro h
  have hcount : (initializeProcessors 0xffff800000001000 ⟨0, 19, .ofNat 32⟩
    ⟨Memory.zero, 0, 0, [], fun _ => 0⟩).cpuCount.toNat = 19 := initializeProcessors_cpuCount
  have hcpus : (initializeProcessors 0xffff800000001000 ⟨0, 19, .ofNat 32⟩
    ⟨Memory.zero, 0, 0, [], fun _ => 0⟩).cpus = 0xffff800000001000 := initializeProcessors_cpus
  generalize initializeProcessors 0xffff800000001000 ⟨0, 19, .ofNat 32⟩ ⟨Memory.zero, 0, 0, [], fun _ => 0⟩ = σ at *
  rw [← hcpus] at h
  exact absurd (cpuCount_le h) (by omega)

end KernelMain.Processors
