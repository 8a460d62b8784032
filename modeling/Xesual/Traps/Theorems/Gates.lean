import Xesual.Segments.Theorems.Descriptors
import Xesual.Traps.Gates

-- The processor finds the handlers in the interrupt descriptor table.

namespace Traps

open BitVec Memory

variable {handler IDTEntries : BitVec 64} {selector : BitVec 16} {flags : BitVec 8} {user software : Bool}
  {entry : IDTEntry} {symbol : Handler → BitVec 64} {m : Memory} {cpl : BitVec 2} {vector : BitVec 8} {i j : Nat}

namespace IDTEntry

section Fields

theorem getLsbD_mask16 (h : i < 16) : (0xffff : BitVec 64).getLsbD i := by
  interval_cases i <;> rfl

theorem getLsbD_mask32 (h : i < 32) : (0xffffffff : BitVec 64).getLsbD i := by
  interval_cases i <;> rfl

-- The parts of an address are put together again.
theorem append_base : (handler >>> 32 &&& 0xffffffff).setWidth 32 ++
    (handler >>> 16 &&& 0xffff).setWidth 16 ++ (handler &&& 0xffff).setWidth 16 = handler := by
  apply eq_of_getLsbD_eq
  intro i hi
  simp only [getLsbD_append, getLsbD_setWidth, getLsbD_and, getLsbD_ushiftRight]
  grind [getLsbD_mask16, getLsbD_mask32]

theorem getGate_eq_append : entry.getGate = entry.baseHigh ++ entry.baseMid ++ entry.baseLow := by
  apply eq_of_getLsbD_eq
  intro i hi
  simp only [getGate, getLsbD_append, getLsbD_or, getLsbD_shiftLeft, getLsbD_setWidth]
  grind

theorem getLsbD_lowBits : entry.lowBits.getLsbD i =
    if i < 16 then entry.baseLow.getLsbD i
    else if i < 32 then entry.selector.getLsbD (i - 16)
    else if i < 40 then entry.zero.getLsbD (i - 32)
    else if i < 48 then entry.flags.getLsbD (i - 40)
    else entry.baseMid.getLsbD (i - 48) := by
  simp only [lowBits, getLsbD_append]
  grind

theorem ofBits_eq : Gate.ofBits entry.lowBits entry.highBits =
    { offset         := entry.baseHigh ++ entry.baseMid ++ entry.baseLow
      selector       := entry.selector
      stackTable     := entry.zero.extractLsb' 0 3
      type           := entry.flags.extractLsb' 0 5
      privilegeLevel := entry.flags.extractLsb' 5 2
      present        := entry.flags.getLsbD 7 } := by
  rw [Gate.ofBits, Gate.mk.injEq]
  refine ⟨?_, ?_, ?_, ?_, ?_, getLsbD_lowBits⟩ <;> apply eq_of_getLsbD_eq <;> intro i hi
  case refine_1 =>
    simp only [getLsbD_append, getLsbD_extractLsb', getLsbD_lowBits, highBits]
    grind
  all_goals
    simp only [getLsbD_extractLsb', getLsbD_lowBits]
    grind

-- An entry that has been set up by `setGate`, as it is seen by the kernel and by the processor.
theorem getGate_setGate : (setGate handler selector flags user).getGate = handler :=
  getGate_eq_append.trans append_base

theorem ofBits_setGate :
    Gate.ofBits (setGate handler selector interruptGate user).lowBits
        (setGate handler selector interruptGate user).highBits =
      ⟨handler, selector, 0, 0xE, if user then 3 else 0, true⟩ := by
  rw [ofBits_eq, Gate.mk.injEq]
  refine ⟨append_base, rfl, rfl, ?_⟩
  have hflags : (setGate handler selector interruptGate user).flags = if user then 0xEE else 0x8E := by
    cases user <;> rfl
  rw [hflags]
  cases user <;> decide

end Fields

section Words

theorem load_store_low : (store m handler entry).load handler = entry.lowBits := by
  have hd : Disjoint (region (handler + 8) 8) (region handler 8) := by
    refine disjoint_region ?_ ?_ <;> bv_omega
  rw [store, load_store_of_disjoint hd, Memory.load_store]

theorem load_store_high : (store m handler entry).load (handler + 8) = entry.highBits :=
  Memory.load_store

theorem changes_store : Changes m (store m handler entry) (region handler 16) := by
  refine .trans (Changes.store.mono ?_) (Changes.store.mono ?_)
  · exact region_subset (by bv_omega)
  · exact region_subset (by bv_omega)

-- The entries do not overlap.
theorem disjoint_address (hi : i < 256) (hj : j < 256) (h : i ≠ j) :
    Disjoint (region (address IDTEntries i) 16) (region (address IDTEntries j) 16) := by
  have hi' : (BitVec.ofNat 64 (sizeof * i)).toNat = 16 * i := by rw [toNat_ofNat, sizeof]; omega
  have hj' : (BitVec.ofNat 64 (sizeof * j)).toNat = 16 * j := by rw [toNat_ofNat, sizeof]; omega
  obtain h | h := Nat.lt_or_gt_of_ne h
  · exact disjoint_region_add (by omega) (by omega)
  · exact (disjoint_region_add (by omega) (by omega)).symm

end Words

end IDTEntry

section Table

open IDTEntry

-- What the processor reads for an interrupt.
def read (m : Memory) (IDTEntries : BitVec 64) (i : Nat) : Gate :=
  .ofBits (m.load (address IDTEntries i)) (m.load (address IDTEntries i + 8))

theorem read_store : read (store m (address IDTEntries i) entry) IDTEntries i = .ofBits entry.lowBits entry.highBits := by
  rw [read, load_store_low, load_store_high]

theorem read_store_of_ne (hi : i < 256) (hj : j < 256) (h : j ≠ i) :
    read (store m (address IDTEntries j) entry) IDTEntries i = read m IDTEntries i := by
  have hd : Disjoint (region (address IDTEntries i) 16) (region (address IDTEntries j) 16) :=
    disjoint_address hi hj h.symm
  have hlow : Disjoint (region (address IDTEntries i) 8) (region (address IDTEntries j) 16) :=
    hd.mono_left (region_subset (by bv_omega))
  have hhigh : Disjoint (region (address IDTEntries i + 8) 8) (region (address IDTEntries j) 16) :=
    hd.mono_left (region_subset (by bv_omega))
  rw [read, read, changes_store.load hlow, changes_store.load hhigh]

-- The first calls of `setGate`, where no entry is set twice.
theorem read_foldl {gates : List (Nat × Handler × Bool)} (hg : ∀ gate ∈ gates, gate.fst < 256)
    (hn : (gates.map Prod.fst).Nodup) (hi : i < 256) :
    read (gates.foldl (fun m gate => store m (address IDTEntries gate.fst)
      (setGate (symbol gate.snd.fst) codeSelector interruptGate gate.snd.snd)) m) IDTEntries i =
      (gates.lookup i).elim (read m IDTEntries i) fun gate =>
        ⟨symbol gate.fst, codeSelector, 0, 0xE, if gate.snd then 3 else 0, true⟩ := by
  induction gates generalizing m
  case nil => rfl
  case cons gate gates ih =>
    obtain ⟨hlt, hg⟩ := List.forall_mem_cons.mp hg
    obtain ⟨hnew, hn⟩ := List.nodup_cons.mp hn
    rw [List.foldl_cons, ih hg hn]
    by_cases h : i = gate.fst
    case neg => rw [List.lookup_cons, beq_false_of_ne h, read_store_of_ne hi hlt (Ne.symm h)]
    case pos =>
      have hnone : gates.lookup i = none := by
        rw [List.lookup_eq_none_iff]
        intro x hx
        exact bne_iff_ne.mpr fun hx' => hnew (h ▸ hx' ▸ List.mem_map_of_mem hx)
      rw [List.lookup_cons, hnone, h, read_store, ofBits_setGate, beq_self_eq_true]
      rfl

-- Every entry that is set leads to the code that is expected for its interrupt.
def Handler.ofVector (i : Nat) : Handler :=
  if 32 ≤ i ∧ i < 48 then .irq (i - 32) else .isr i

theorem lookup_gates (h : i < 256) : gates.lookup i = (gate i).map fun _ => (.ofVector i, i == 128) := by
  revert i
  decide +kernel

theorem stub_ofVector (h : i < 256) : (Handler.ofVector i).stub = gate i := by
  revert i
  decide +kernel

theorem read_zero (hz : Set.EqOn m Memory.zero (region IDTEntries 4096)) (hi : i < 256) :
    read m IDTEntries i = .ofBits 0 0 := by
  have hload (j : Nat) (hj : j < 16 * i + 9) (hji : 16 * i ≤ j) : m.load (IDTEntries + .ofNat 64 j) = 0 := by
    have hsub : region (IDTEntries + .ofNat 64 j) 8 ⊆ region IDTEntries 4096 := region_subset (by bv_omega)
    exact (load_congr (hz.mono hsub)).trans load_zero
  have hhigh : address IDTEntries i + 8 = IDTEntries + .ofNat 64 (16 * i + 8) := by
    rw [address, sizeof]
    bv_omega
  rw [read, hhigh, hload _ (by omega) (by omega), address, sizeof, hload _ (by omega) (by omega)]

-- The error code of an exception that is caused by an entry of the table.
def errorCode (vector : BitVec 8) (software : Bool) : BitVec 16 :=
  vector.setWidth 16 * 8 + 2 + if software then 0 else 1

-- The processor enters the code that is given by `gate`, with interrupts disabled. There is an exception if there is
-- none, or if a process has executed `int` with something else than the number for system calls.
theorem deliver_setupIDTTable (hz : Set.EqOn m Memory.zero (region IDTEntries 4096)) :
    ∃ handler, handler.stub = gate vector.toNat ∧
      deliver (loadIDTTable IDTEntries) (setupIDTTable IDTEntries symbol m) cpl software vector =
        if gate vector.toNat = none ∨ (software ∧ cpl ≠ 0 ∧ vector ≠ 128) then
          .error (.generalProtection (errorCode vector software))
        else
          .ok ⟨symbol handler, codeSelector, 0, 0xE, if vector = 128 then 3 else 0, true⟩ := by
  have hi : vector.toNat < 256 := vector.isLt
  have haddress : (loadIDTTable IDTEntries).base + vector.setWidth 64 * 16 = address IDTEntries vector.toNat := by
    rw [address, sizeof, loadIDTTable]
    bv_omega
  have hn : (gates.map Prod.fst).Nodup ∧ ∀ gate ∈ gates, gate.fst < 256 := by decide +kernel
  have hread : read (setupIDTTable IDTEntries symbol m) IDTEntries vector.toNat = _ := read_foldl hn.right hn.left hi
  have hlimit : ¬(loadIDTTable IDTEntries).limit.toNat < vector.toNat * 16 + 15 := by
    have h : (loadIDTTable IDTEntries).limit.toNat = 4096 := rfl
    omega
  refine ⟨.ofVector vector.toNat, stub_ofVector hi, ?_⟩
  rw [read, lookup_gates hi, read_zero hz hi] at hread
  simp only [deliver, haddress, hread, if_neg hlimit]
  cases gate vector.toNat
  case none =>
    have htype : (Gate.ofBits 0 0).type ≠ 0xE ∧ (Gate.ofBits 0 0).type ≠ 0xF := by decide
    simp only [Option.map_none, Option.elim_none, true_or, ↓reduceIte, errorCode]
    exact if_pos htype
  case some stub =>
    have h128 : (vector.toNat == 128) = decide (vector = 128) := by
      rw [Bool.eq_iff_iff, beq_iff_eq, decide_eq_true_iff, ← toNat_inj]
      rfl
    have hlevel : (if vector = 128 then (3 : BitVec 2) else 0) < cpl ↔ cpl ≠ 0 ∧ vector ≠ 128 := by
      split <;> bv_omega
    simp only [Option.map_some, Option.elim_some, h128, decide_eq_true_eq, hlevel, errorCode]
    simp

-- The handler of system calls is at another address than all others.
def symbols (handler : Handler) : BitVec 64 :=
  if handler.stub = some (.noErrorCode 128) then 0xffffffff80002000 else 0xffffffff80001000

-- A process can make a system call and cause a page fault, but it cannot pretend that there is one. The local APIC uses
-- interrupt 63 for spurious interrupts, for which there is no handler.
theorem deliver_setupIDTTable_software :
    let m := setupIDTTable 0xffffffff80020000 symbols Memory.zero
    deliver (loadIDTTable 0xffffffff80020000) m 3 true 128 = .ok ⟨0xffffffff80002000, 8, 0, 0xE, 3, true⟩ ∧
      deliver (loadIDTTable 0xffffffff80020000) m 3 false 14 = .ok ⟨0xffffffff80001000, 8, 0, 0xE, 0, true⟩ ∧
      deliver (loadIDTTable 0xffffffff80020000) m 3 true 14 = .error (.generalProtection 114) ∧
      deliver (loadIDTTable 0xffffffff80020000) m 3 false 63 = .error (.generalProtection 507) := by
  have h (software : Bool) (vector : BitVec 8) : ∃ handler : Handler, handler.stub = gate vector.toNat ∧
      deliver (loadIDTTable 0xffffffff80020000) (setupIDTTable 0xffffffff80020000 symbols Memory.zero) 3 software
        vector = _ :=
    deliver_setupIDTTable (Set.eqOn_refl ..)
  obtain ⟨handler, hs, hsyscall⟩ := h true 128
  obtain ⟨handler', hp, hpageFault⟩ := h false 14
  obtain ⟨_, -, hpretended⟩ := h true 14
  obtain ⟨_, -, hspurious⟩ := h false 63
  have hs' : symbols handler = 0xffffffff80002000 := if_pos hs
  have hp' : symbols handler' = 0xffffffff80001000 := by
    rw [symbols, hp]
    rfl
  rw [hs'] at hsyscall
  rw [hp'] at hpageFault
  exact ⟨hsyscall, hpageFault, hpretended, hspurious⟩

end Table
end Traps
