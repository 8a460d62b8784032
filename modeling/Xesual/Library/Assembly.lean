import Xesual.Library.Memory

-- Straight-line machine code that works with a stack. The stack grows downwards in words of 64 bits.

namespace Assembly

-- One of the registers points to the top of the stack.
class StackPointer (ρ : Type) where
  sp : ρ

open StackPointer Memory

structure State (ρ : Type) where
  registers : ρ → BitVec 64
  memory    : Memory

-- The word in memory is given by an absolute address or relative to a register.
inductive Operand (ρ : Type)
  | immediate (value : BitVec 64)
  | register (r : ρ)
  | absolute (address : BitVec 64)
  | relative (r : ρ) (displacement : BitVec 64)

inductive Instruction (ρ : Type)
  | push (source : Operand ρ)
  | pop (target : ρ)
  | load (source : Operand ρ) (target : ρ)
  | store (source : ρ) (target : ρ) (displacement : BitVec 64)
  | add (value : BitVec 64) (target : ρ)
  | exchange (r₁ r₂ : ρ)

variable {ρ : Type} [DecidableEq ρ]

namespace State

def set (s : State ρ) (r : ρ) (v : BitVec 64) : State ρ :=
  { s with registers := Function.update s.registers r v }

-- The value of an operand.
def value (s : State ρ) : Operand ρ → BitVec 64
  | .immediate v => v
  | .register r => s.registers r
  | .absolute a => s.memory.load a
  | .relative r d => s.memory.load (s.registers r + d)

variable [StackPointer ρ]

def push (s : State ρ) (v : BitVec 64) : State ρ where
  registers := Function.update s.registers sp (s.registers sp - 8)
  memory    := s.memory.store (s.registers sp - 8) v

-- If the target is the stack pointer itself, it is overwritten by the word from the stack.
def pop (s : State ρ) (r : ρ) : State ρ :=
  (s.set sp (s.registers sp + 8)).set r (s.memory.load (s.registers sp))

def execute (s : State ρ) : Instruction ρ → State ρ
  | .push source        => s.push (s.value source)
  | .pop target         => s.pop target
  | .load source target => s.set target (s.value source)
  | .store source target displacement =>
    { s with memory := s.memory.store (s.registers target + displacement) (s.registers source) }
  | .add value target   => s.set target (s.registers target + value)
  | .exchange r₁ r₂     => (s.set r₁ (s.registers r₂)).set r₂ (s.registers r₁)

def run (s : State ρ) (code : List (Instruction ρ)) : State ρ :=
  code.foldl execute s

-- The addresses of the words that are read.
def operandReads (s : State ρ) : Operand ρ → List (BitVec 64)
  | .immediate _  => []
  | .register _   => []
  | .absolute a   => [a]
  | .relative r d => [s.registers r + d]

def instructionReads (s : State ρ) : Instruction ρ → List (BitVec 64)
  | .push source   => s.operandReads source
  | .pop _         => [s.registers sp]
  | .load source _ => s.operandReads source
  | .store ..      => []
  | .add ..        => []
  | .exchange ..   => []

def reads (s : State ρ) : List (Instruction ρ) → List (BitVec 64)
  | []      => []
  | i :: is => s.instructionReads i ++ (s.execute i).reads is

def pushAll (s : State ρ) (vs : List (BitVec 64)) : State ρ :=
  vs.foldl push s

def popAll (s : State ρ) (rs : List ρ) : State ρ :=
  rs.foldl pop s

end State

open State

variable [StackPointer ρ] {s : State ρ} {r : ρ} {rs rs' : List ρ} {v k : BitVec 64} {vs vs' : List (BitVec 64)}

@[simp]
theorem run_nil : s.run [] = s := rfl

@[simp]
theorem run_cons {i : Instruction ρ} {is : List (Instruction ρ)} : s.run (i :: is) = (s.execute i).run is := rfl

theorem run_append {is js : List (Instruction ρ)} : s.run (is ++ js) = (s.run is).run js :=
  List.foldl_append

@[simp]
theorem reads_nil : s.reads [] = [] := rfl

@[simp]
theorem reads_cons {i : Instruction ρ} {is : List (Instruction ρ)} :
    s.reads (i :: is) = s.instructionReads i ++ (s.execute i).reads is := rfl

theorem reads_append {is js : List (Instruction ρ)} : s.reads (is ++ js) = s.reads is ++ (s.run is).reads js := by
  induction is generalizing s
  case nil           => rfl
  case cons i is ih  => rw [List.cons_append, reads_cons, reads_cons, ih, List.append_assoc, run_cons]

section Set

variable {r' : ρ}

omit [StackPointer ρ]

@[simp]
theorem set_self : (s.set r v).registers r = v :=
  Function.update_self ..

theorem set_of_ne (h : r' ≠ r) : (s.set r v).registers r' = s.registers r' :=
  Function.update_of_ne h ..

@[simp]
theorem set_memory : (s.set r v).memory = s.memory := rfl

end Set

section Push

@[simp]
theorem push_sp : (s.push v).registers sp = s.registers sp - 8 :=
  Function.update_self ..

theorem push_registers (h : r ≠ sp) : (s.push v).registers r = s.registers r :=
  Function.update_of_ne h ..

theorem set_push_memory {w : BitVec 64} (h : r ≠ sp) : ((s.set r v).push w).memory = (s.push w).memory := by
  rw [State.push, set_of_ne h.symm]
  rfl

@[simp]
theorem pushAll_nil : s.pushAll [] = s := rfl

theorem pushAll_cons : s.pushAll (v :: vs) = (s.push v).pushAll vs := rfl

theorem pushAll_concat : s.pushAll (vs ++ [v]) = (s.pushAll vs).push v :=
  List.foldl_concat ..

theorem pushAll_append : s.pushAll (vs ++ vs') = (s.pushAll vs).pushAll vs' :=
  List.foldl_append

@[simp]
theorem pushAll_sp : (s.pushAll vs).registers sp = s.registers sp - 8 * .ofNat 64 vs.length := by
  induction vs using List.reverseRecOn
  case nil => simp
  case append_singleton vs v ih =>
    rw [pushAll_concat, push_sp, ih, List.length_append, List.length_singleton]
    bv_omega

theorem pushAll_registers (h : r ≠ sp) : (s.pushAll vs).registers r = s.registers r := by
  induction vs using List.reverseRecOn
  case nil                      => rfl
  case append_singleton vs v ih => rw [pushAll_concat, push_registers h, ih]

-- Pushing only changes the words between the new and the old stack pointer.
theorem pushAll_memory (hl : 8 * vs.length ≤ 2 ^ 64)
    (hk : k ∉ region (s.registers sp - 8 * .ofNat 64 vs.length) (8 * vs.length)) :
    (s.pushAll vs).memory k = s.memory k := by
  induction vs using List.reverseRecOn
  case nil => rfl
  case append_singleton vs v ih =>
    rw [List.length_append, List.length_singleton] at hl hk
    simp only [region, Set.mem_ofPred_eq] at hk ih
    rw [pushAll_concat]
    have hs : k ∉ region ((s.pushAll vs).registers sp - 8) 8 := by
      simp only [region, pushAll_sp, Set.mem_ofPred_eq]
      bv_omega
    exact (store_of_not_mem hs).trans <| ih (by omega) (by bv_omega)

-- The code that pushes some registers.
theorem run_push (h : sp ∉ rs) :
    s.run (rs.map fun r => .push (.register r)) = s.pushAll (rs.map s.registers) := by
  induction rs generalizing s
  case nil => rfl
  case cons r rs ih =>
    have ⟨_, hs⟩ := List.ne_and_not_mem_of_not_mem_cons h
    have hr : rs.map (s.push (s.registers r)).registers = rs.map s.registers :=
      List.map_congr_left fun x hx => push_registers <| ne_of_mem_of_not_mem hx hs
    exact (ih hs).trans (congrArg _ hr)

theorem reads_push : s.reads (rs.map fun r => .push (.register r)) = [] := by
  induction rs generalizing s
  case nil       => rfl
  case cons _ ih => exact ih

variable {φ : Type} [DecidableEq φ] {layout : List φ} {f : φ}

-- A word that is pushed does not affect a record at the top of the stack.
theorem push_field (hf : f ∈ layout) (hl : 8 * layout.length + 8 ≤ 2 ^ 64) :
    (s.push v).memory.field layout (s.registers sp) f = s.memory.field layout (s.registers sp) f := by
  refine field_congr hf (by omega) fun k hk => store_of_not_mem fun hk' => ?_
  simp only [region, Set.mem_ofPred_eq] at hk hk'
  bv_omega

-- Pushing the fields of a record from the last one to the first one leaves the record at the top of the stack.
theorem pushAll_field (value : φ → BitVec 64) (hf : f ∈ layout) (hl : 8 * layout.length ≤ 2 ^ 64) :
    (s.pushAll (layout.reverse.map value)).memory.field layout
      ((s.pushAll (layout.reverse.map value)).registers sp) f = value f := by
  induction layout
  case nil => nomatch hf
  case cons g layout ih =>
    rw [List.length_cons] at hl
    rw [List.reverse_cons, List.map_append, List.map_singleton, pushAll_concat, push_sp]
    by_cases hg : g = f
    case pos => rw [hg, field_cons_self, State.push, load_store]
    case neg =>
      have hf := (List.mem_cons.mp hf).resolve_left (Ne.symm hg)
      rw [field_cons_of_ne hg, BitVec.sub_add_cancel, push_field hf (by omega), ih hf (by omega)]

end Push

section Pop

theorem pop_self : (s.pop r).registers r = s.memory.load (s.registers sp) :=
  set_self

theorem pop_sp (h : r ≠ sp) : (s.pop r).registers sp = s.registers sp + 8 :=
  (set_of_ne h.symm).trans set_self

theorem pop_of_ne {r' : ρ} (h : r' ≠ r) (hs : r' ≠ sp) : (s.pop r).registers r' = s.registers r' :=
  (set_of_ne h).trans (set_of_ne hs)

@[simp]
theorem popAll_nil : s.popAll [] = s := rfl

theorem popAll_cons : s.popAll (r :: rs) = (s.pop r).popAll rs := rfl

theorem popAll_concat : s.popAll (rs ++ [r]) = (s.popAll rs).pop r :=
  List.foldl_concat ..

@[simp]
theorem popAll_memory : (s.popAll rs).memory = s.memory := by
  induction rs generalizing s
  case nil       => rfl
  case cons _ ih => exact ih

theorem run_pop : s.run (rs.map .pop) = s.popAll rs :=
  List.foldl_map

theorem popAll_sp (h : sp ∉ rs) : (s.popAll rs).registers sp = s.registers sp + 8 * .ofNat 64 rs.length := by
  induction rs generalizing s
  case nil => simp
  case cons r rs ih =>
    have ⟨hr, hs⟩ := List.ne_and_not_mem_of_not_mem_cons h
    rw [popAll_cons, ih hs, pop_sp (Ne.symm hr), List.length_cons]
    bv_omega

theorem mem_reads_pop (h : sp ∉ rs) (hk : k ∈ s.reads (rs.map .pop)) :
    ∃ i < rs.length, k = s.registers sp + 8 * .ofNat 64 i := by
  induction rs generalizing s
  case nil => nomatch hk
  case cons r rs ih =>
    have ⟨hr, hs⟩ := List.ne_and_not_mem_of_not_mem_cons h
    cases List.mem_append.mp hk
    case inl hk => exact ⟨0, Nat.zero_lt_succ _, by simpa using List.mem_singleton.mp hk⟩
    case inr hk =>
      have ⟨i, hi, hk⟩ := ih hs hk
      refine ⟨i + 1, Nat.succ_lt_succ hi, ?_⟩
      rw [hk, State.execute, pop_sp (Ne.symm hr)]
      bv_omega

theorem popAll_of_not_mem (h : r ∉ rs) (hr : r ≠ sp) : (s.popAll rs).registers r = s.registers r := by
  induction rs generalizing s
  case nil => rfl
  case cons r' rs ih =>
    have ⟨hn, h⟩ := List.ne_and_not_mem_of_not_mem_cons h
    rw [popAll_cons, ih h, pop_of_ne hn hr]

-- Popping some registers loads them from a record whose fields have their names.
theorem popAll_of_mem (hr : r ∈ rs) (hs : sp ∉ rs) (hd : rs.Nodup) :
    (s.popAll rs).registers r = s.memory.field rs (s.registers sp) r := by
  induction rs generalizing s
  case nil => nomatch hr
  case cons r' rs ih =>
    have ⟨hs', hs⟩ := List.ne_and_not_mem_of_not_mem_cons hs
    have ⟨hd', hd⟩ := List.nodup_cons.mp hd
    rw [popAll_cons]
    by_cases h : r' = r
    case pos =>
      subst h
      rw [popAll_of_not_mem hd' (Ne.symm hs'), pop_self, field_cons_self]
    case neg =>
      have hr := (List.mem_cons.mp hr).resolve_left (Ne.symm h)
      rw [ih hr hs hd, pop_sp (Ne.symm hs'), field_cons_of_ne h]
      rfl

end Pop
end Assembly
