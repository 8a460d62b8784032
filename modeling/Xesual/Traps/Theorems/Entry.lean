import Xesual.Traps.Entry
import Xesual.PhysicalMemory.FreeList

namespace Traps

open PhysicalMemoryManagement (Range State)

variable {memory : BitVec 64 → BitVec 64} {r : Registers} {cpu cpu' : CPUState} {e : Entry} {s : Stack}

namespace Stack

variable {ops : List Op} {n : Nat}

-- The depths at which words are written, counted in words from the initial stack pointer.
def depths (n : Nat) : List Op → List Nat
  | []             => []
  | .push _ :: ops => (n + 1) :: depths (n + 1) ops
  | .pop :: ops    => depths (n - 1) ops

-- The stack pointer does not rise above its initial value.
def Balanced (n : Nat) : List Op → Prop
  | []             => True
  | .push _ :: ops => Balanced (n + 1) ops
  | .pop :: ops    => 0 < n ∧ Balanced (n - 1) ops

theorem mem_depths {k : Nat} (h : k ∈ depths n ops) : 1 ≤ k ∧ k ≤ n + ops.length := by
  induction ops generalizing n
  case nil => simp [depths] at h
  case cons op ops ih =>
    cases op <;> simp only [depths, List.mem_cons, List.length_cons] at h ⊢
    case push =>
      cases h
      case inl h => omega
      case inr h => have := ih h; omega
    case pop => have := ih h; omega

theorem balanced_push (vs : List (BitVec 64)) : Balanced n (vs.map .push ++ ops) ↔ Balanced (n + vs.length) ops := by
  induction vs generalizing n
  case nil => rfl
  case cons v vs ih =>
    simp only [List.map_cons, List.cons_append, Balanced, ih, List.length_cons]
    rw [Nat.add_right_comm, Nat.add_assoc]

theorem mem_writes_foldl {s : Stack} {w : BitVec 64 × BitVec 64} {rsp : BitVec 64} (hb : Balanced n ops)
    (hs : s.rsp = rsp - 8 * .ofNat 64 n) (h : w ∈ (ops.foldl execute s).writes) :
    w ∈ s.writes ∨ ∃ k ∈ depths n ops, w.fst = rsp - 8 * .ofNat 64 k := by
  induction ops generalizing s n
  case nil => exact .inl h
  case cons op ops ih =>
    cases op
    case push v =>
      have hs' : s.rsp - 8 = rsp - 8 * .ofNat 64 (n + 1) := by bv_omega
      cases ih hb hs' h
      case inl h =>
        simp only [execute, List.mem_append, List.mem_singleton] at h
        exact h.imp id fun h => ⟨n + 1, by simp [depths], by rw [h, hs']⟩
      case inr h =>
        have ⟨k, hk, h⟩ := h
        exact .inr ⟨k, List.mem_cons_of_mem _ hk, h⟩
    case pop =>
      have ⟨hn, hb⟩ := hb
      have hs' : s.rsp + 8 = rsp - 8 * .ofNat 64 (n - 1) := by bv_omega
      exact ih (s := s.execute .pop) hb hs' h

theorem subset_writes_foldl {s : Stack} : s.writes ⊆ (ops.foldl execute s).writes := by
  induction ops generalizing s
  case nil => exact fun _ h => h
  case cons op ops ih =>
    cases op
    case push => exact fun _ h => ih <| List.mem_append_left _ h
    case pop  => exact ih (s := s.execute .pop)

theorem mem_writes_run {w : BitVec 64 × BitVec 64} {rsp : BitVec 64} (hb : Balanced 0 ops)
    (h : w ∈ (run rsp ops).writes) : ∃ k ∈ depths 0 ops, w.fst = rsp - 8 * .ofNat 64 k := by
  have hs : rsp = rsp - 8 * .ofNat 64 0 := by simp
  cases mem_writes_foldl (s := ⟨rsp, []⟩) hb hs h
  case inl h => simp at h
  case inr h => exact h

end Stack

theorem Stub.balanced_ops {stub : Stub} {n : Nat} : Stack.Balanced n (stub.ops memory r) := by
  have ht {n : Nat} : Stack.Balanced n (trapCommon r) := by simp [Stack.Balanced, trapCommon, generalRegisters]
  cases stub <;> simp [Stub.ops, Stack.Balanced, ht]
  case clockInterrupt => split <;> simp [Stack.Balanced, ht]

theorem Stub.length_ops {stub : Stub} : (stub.ops memory r).length ≤ 19 := by
  have ht : (trapCommon r).length = 15 := by simp [trapCommon, generalRegisters]
  cases stub <;> simp [Stub.ops, ht]
  case clockInterrupt => split <;> simp [ht]

-- All words are written below the initial stack pointer, and there is at least one of them.
theorem enter_spec (h : cpu.enter memory r e = some s) : ∃ rsp v ops, s = .run rsp (.push v :: ops) ∧
    (rsp = cpu.interruptStack ∨ rsp = cpu.stackPointers 0 >>> 4 <<< 4) ∧ Stack.Balanced 0 (.push v :: ops) ∧
    (Op.push v :: ops).length ≤ 25 := by
  cases e
  case syscall =>
    simp only [CPUState.enter, Option.some.injEq] at h
    subst h
    exact ⟨_, _, _, rfl, .inl rfl, by simp [Stack.Balanced], by simp⟩
  case interrupt n errorCode =>
    have ⟨stub, _, h⟩ := Option.map_eq_some_iff.mp h
    subst h
    refine ⟨_, _, _, rfl, .inr rfl, ?_, ?_⟩
    case refine_1 =>
      simp only [List.append_eq, List.cons_append, List.nil_append, Stack.Balanced, Stack.balanced_push]
      exact Stub.balanced_ops
    case refine_2 =>
      have hl : (stub.ops memory r).length ≤ 19 := Stub.length_ops
      have he : errorCode.toList.length ≤ 1 := by cases errorCode <;> simp
      simp only [List.append_eq, List.length_append, List.length_cons, List.length_nil, List.length_map]
      omega

theorem sharedMain_spec {fuel : Nat} {m m' : State} (h : sharedMain fuel m cpu = some (m', some cpu')) :
    cpu'.interruptStack ≠ 0 ∧ cpu'.stackPointers 0 = cpu'.interruptStack := by
  have ⟨_, _, h⟩ := Option.map_eq_some_iff.mp h
  simp only [Prod.mk.injEq, Option.ite_none_left_eq_some, Option.some.injEq] at h
  have ⟨_, h0, h⟩ := h
  subst h
  exact ⟨h0, by simp [CPUState.initTable]⟩

-- The stack pointer is the lower end of the pages that have been allocated, so that no word is written to them.
theorem not_inStack {fuel : Nat} {m m' : State} (h : sharedMain fuel m cpu = some (m', some cpu'))
    (he : cpu'.enter memory r e = some s) {w : BitVec 64 × BitVec 64} (hw : w ∈ s.writes) :
    ¬cpu'.InStack w.fst := by
  have ⟨h0, hp⟩ := sharedMain_spec h
  have ⟨rsp, v, ops, hs, hr, hb, hl⟩ := enter_spec he
  subst hs
  have ⟨k, hk, hw⟩ := Stack.mem_writes_run hb hw
  have ⟨hk₁, hk₂⟩ := Stack.mem_depths hk
  have hr : rsp.toNat ≤ cpu'.interruptStack.toNat ∧ cpu'.interruptStack.toNat ≤ rsp.toNat + 15 := by
    rw [hp] at hr
    cases hr
    case inl hr => simp [hr]
    case inr hr =>
      rw [hr, BitVec.toNat_shiftLeft, BitVec.toNat_ushiftRight, Nat.shiftLeft_eq, Nat.shiftRight_eq_div_pow]
      omega
  have h0 : cpu'.interruptStack.toNat ≠ 0 := fun h => h0 (BitVec.eq_of_toNat_eq h)
  have ha : w.fst.toNat = (2 ^ 64 - 8 * k + rsp.toNat) % 2 ^ 64 := by
    rw [hw, BitVec.toNat_sub, BitVec.toNat_mul, BitVec.toNat_ofNat]
    simp only [BitVec.ofNat_eq_ofNat, BitVec.toNat_ofNat]
    omega
  simp only [CPUState.InStack, StackSize, PhysicalMemoryManagement.PageSize_eq, ha]
  have := rsp.isLt
  omega

theorem exists_mem_writes (h : cpu.enter memory r e = some s) : ∃ w, w ∈ s.writes := by
  have ⟨rsp, v, ops, hs, _⟩ := enter_spec h
  exact ⟨(rsp - 8, v), hs ▸ Stack.subset_writes_foldl (s := ⟨rsp - 8, [(rsp - 8, v)]⟩) (by simp)⟩

-- The entry to the kernel never stays inside of the stack.
theorem not_forall_inStack {fuel : Nat} {m m' : State} (h : sharedMain fuel m cpu = some (m', some cpu'))
    (he : cpu'.enter memory r e = some s) : ¬∀ w ∈ s.writes, cpu'.InStack w.fst := by
  intro hs
  have ⟨w, hw⟩ := exists_mem_writes he
  exact not_inStack h he hw (hs w hw)

-- The stack of the processor consists of the 16 pages of the free list.
theorem sharedMain_single : ∃ m' cpu',
    sharedMain 2 (.single ⟨0xffff800000100000, 16⟩) ⟨0, fun _ => 0⟩ = some (m', some cpu') ∧
    cpu'.interruptStack = 0xffff800000100000 := by
  have h : (sharedMain 2 (.single ⟨0xffff800000100000, 16⟩) ⟨0, fun _ => 0⟩).map
      (fun x => x.snd.map (·.interruptStack)) = some (some 0xffff800000100000) := by decide
  have ⟨⟨m', _⟩, h, hc⟩ := Option.map_eq_some_iff.mp h
  have ⟨cpu', hc, hi⟩ := Option.map_eq_some_iff.mp hc
  exact ⟨m', cpu', hc ▸ h, hi⟩

-- The processor receives a page fault.
theorem not_forall_inStack_pageFault : ∃ m' cpu' s,
    sharedMain 2 (.single ⟨0xffff800000100000, 16⟩) ⟨0, fun _ => 0⟩ = some (m', some cpu') ∧
    cpu'.interruptStack = 0xffff800000100000 ∧
    cpu'.enter (fun _ => 0) (fun _ => 0) (.interrupt 14 (some 4)) = some s ∧
    ¬∀ w ∈ s.writes, cpu'.InStack w.fst := by
  have ⟨m', cpu', h, hi⟩ := sharedMain_single
  have he : cpu'.enter (fun _ => 0) (fun _ => 0) (.interrupt 14 (some 4)) = some _ := rfl
  exact ⟨m', cpu', _, h, hi, he, not_forall_inStack h he⟩

theorem not_inStack_pageFault : ¬∀ (fuel : Nat) (m m' : State) (cpu cpu' : CPUState) (memory : BitVec 64 → BitVec 64)
    (r : Registers) (e : Entry) (s : Stack), sharedMain fuel m cpu = some (m', some cpu') →
    cpu'.enter memory r e = some s → ∀ w ∈ s.writes, cpu'.InStack w.fst := by
  intro hn
  have ⟨m', cpu', h, _⟩ := sharedMain_single
  have he : cpu'.enter (fun _ => 0) (fun _ => 0) (.interrupt 14 (some 4)) = some _ := rfl
  have ⟨w, hw⟩ := exists_mem_writes he
  exact not_inStack h he hw (hn _ _ _ _ _ _ _ _ _ h he w hw)

end Traps
