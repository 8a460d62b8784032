import Xesual.Heap.System
import Xesual.Heap.Theorems.Occupied
import Xesual.Heap.Theorems.Undo

namespace Alloc

open Linked Memory

namespace Block

variable {b : Block}

theorem payload_subset : b.payload ⊆ b.bytes := by
  apply region_subset
  unfold front sizeofUnfreeChunk
  bv_omega

theorem front_add : b.front + 8 = b.base :=
  BitVec.sub_add_cancel ..

end Block

namespace System

variable {σ σ' : System} {b : Block} {q : BitVec 64} {cs cs' : List (BitVec 64)} {heap : State} {fuel : Nat}
variable {a : Action} {as : List Action}

-- Where everything is: the chunks of the free list, the blocks, and the block `q` that has been lost in front of the
-- free list, to which the first chunk is still linked.
structure Layout (σ : System) (q : BitVec 64) (cs : List (BitVec 64)) : Prop where
  freeList : σ.heap.FreeList q cs
  bounded  : ∀ b ∈ σ.live, b.front ≠ 0 ∧ b.front.toNat + (b.size.toNat + 8) ≤ 2 ^ 64
  blocks   : σ.live.Pairwise (fun b b' => Disjoint b.bytes b'.bytes)
  free     : ∀ b ∈ σ.live, Disjoint b.bytes (σ.heap.occupied cs)
  lost     : q ≠ 0 → Disjoint (region q 8) (σ.heap.occupied cs) ∧ ∀ b ∈ σ.live, Disjoint (region q 8) b.bytes

def Invariant (σ : System) : Prop :=
  ∃ q cs, σ.Layout q cs

namespace Layout

theorem outside (l : σ.Layout q cs) : State.Outside q cs :=
  fun hq _ hc => ((l.lost hq).left.mono_right <| State.region_subset_occupied hc).symm.mono_left State.header_subset

-- The free list may get smaller.
theorem shrink (l : σ.Layout q cs) (fl : heap.FreeList q cs') (h : heap.occupied cs' ⊆ σ.heap.occupied cs) :
    Layout { σ with heap } q cs' where
  freeList := fl
  bounded  := l.bounded
  blocks   := l.blocks
  free     := fun b hb => (l.free b hb).mono_right h
  lost     := fun hq => (l.lost hq).imp_left fun hd => hd.mono_right h

-- A block is cut off the free list.
theorem cut (l : σ.Layout q cs) (fl : heap.FreeList q cs') (h : heap.occupied cs' ⊆ σ.heap.occupied cs)
    (hb : b.front ≠ 0 ∧ b.front.toNat + (b.size.toNat + 8) ≤ 2 ^ 64) (hsub : b.bytes ⊆ σ.heap.occupied cs)
    (hd : Disjoint b.bytes (heap.occupied cs')) : Layout { σ with heap, live := b :: σ.live } q cs' where
  freeList := fl
  bounded  := List.forall_mem_cons.mpr ⟨hb, l.bounded⟩
  blocks   := List.pairwise_cons.mpr ⟨fun b' hb' => (l.free b' hb').symm.mono_left hsub, l.blocks⟩
  free     := List.forall_mem_cons.mpr ⟨hd, fun b' hb' => (l.free b' hb').mono_right h⟩
  lost     := fun hq => by
    have ⟨hocc, hlive⟩ := l.lost hq
    exact ⟨hocc.mono_right h, List.forall_mem_cons.mpr ⟨hocc.mono_right hsub, hlive⟩⟩

theorem disjoint_of_mem_erase {b' : Block} (l : σ.Layout q cs) (hb : b ∈ σ.live) (hb' : b' ∈ σ.live.erase b) :
    Disjoint b'.bytes b.bytes := by
  have hperm := (List.perm_cons_erase hb).pairwise_iff (R := fun b b' : Block => Disjoint b.bytes b'.bytes)
    fun h => h.symm
  exact (List.pairwise_cons.mp (hperm.mp l.blocks)).left b' hb' |>.symm

-- A block is put on the free list, or it is lost in front of it.
theorem erase {q' : BitVec 64} (l : σ.Layout q cs) (hb : b ∈ σ.live) (fl : heap.FreeList q' cs')
    (h : heap.occupied cs' ⊆ b.bytes ∪ σ.heap.occupied cs)
    (hq : q' = 0 ∨ q' = q ∨ q' = b.front ∧ heap.occupied cs' ⊆ σ.heap.occupied cs) :
    Layout { σ with heap, live := σ.live.erase b } q' cs' where
  freeList := fl
  bounded  := fun b' hb' => l.bounded b' (List.mem_of_mem_erase hb')
  blocks   := l.blocks.sublist (List.erase_sublist ..)
  free     := fun b' hb' => by
    refine Disjoint.mono_right h <| Set.disjoint_union_right.mpr ⟨l.disjoint_of_mem_erase hb hb', ?_⟩
    exact l.free b' (List.mem_of_mem_erase hb')
  lost     := fun h0 => by
    rcases hq with hq | hq | ⟨hq, hsub⟩
    case inl => exact absurd hq h0
    case inr.inl =>
      subst hq
      have ⟨hocc, hlive⟩ := l.lost h0
      refine ⟨Disjoint.mono_right h <| Set.disjoint_union_right.mpr ⟨hlive b hb, hocc⟩, fun b' hb' => ?_⟩
      exact hlive b' (List.mem_of_mem_erase hb')
    case inr.inr =>
      have hfront : region q' 8 ⊆ b.bytes := by
        rw [hq]
        exact region_subset_of_le (Nat.le_refl _) (by omega)
      refine ⟨((l.free b hb).mono_right hsub).mono_left hfront, fun b' hb' => ?_⟩
      exact (l.disjoint_of_mem_erase hb hb').symm.mono_left hfront

-- Writing to a block does not affect the free list.
theorem write {a : BitVec 64} {v : BitVec 8} (l : σ.Layout q cs) (hb : b ∈ σ.live) (ha : a ∈ b.payload) :
    Layout { σ with heap := { σ.heap with memory := fun k => if k = a then v else σ.heap.memory k } } q cs := by
  have hch : σ.heap.memory.Changes (fun k => if k = a then v else σ.heap.memory k) b.bytes := by
    refine fun k hk => if_neg fun h => hk ?_
    rw [h]
    exact Block.payload_subset ha
  have hd (c : BitVec 64) (hc : c ∈ cs) : Disjoint (header c) b.bytes :=
    ((l.free b hb).mono_right <| State.region_subset_occupied hc).symm.mono_left State.header_subset
  refine l.shrink (l.freeList.of_changes hch hd rfl) fun k ⟨c, hc, hk⟩ => ⟨c, hc, ?_⟩
  rwa [State.extent, State.numBytes_of_changes hch (hd c hc)] at hk

theorem allocate {size p : BitVec 64} (l : σ.Layout q cs) (hc : Careful σ (.allocate size))
    (hs : size.toNat + 8 < 2 ^ 64) (h : Alloc.allocate fuel σ.heap size = some (heap, p)) :
    Invariant (if p = 0 then { σ with heap } else { σ with heap, live := ⟨p, size⟩ :: σ.live }) := by
  have fl := l.freeList
  have hsize : (size + 8).toNat = size.toNat + 8 := by bv_omega
  rcases fl.allocate_cases l.outside h with ⟨hp, hheap, _⟩ | ⟨pre, c, post, hcs, hpre, hle, hheap, hp⟩
  case inl =>
    rw [if_pos hp, hheap]
    exact ⟨q, cs, l.shrink fl.locked (Set.Subset.refl _)⟩
  case inr =>
    subst hcs
    have hfit : σ.heap.FirstFit (size.toNat + 8) c := by
      refine ⟨pre, post, fl.chain, fun d hd => ?_, by bv_omega⟩
      have := hpre d hd
      bv_omega
    have hc := hc c hfit
    rw [← hsize] at hc
    have htake := fl.locked.take l.outside hle
    have ⟨hocc, hdis⟩ := State.occupied_take fl.locked l.outside hle hc
    have hmem : c ∈ pre ++ c :: post := by simp
    have hcut := (State.cut_subset hle).trans <| State.region_subset_occupied hmem
    rw [State.locked_occupied] at hocc
    rw [State.locked_numBytes] at hdis
    generalize σ.heap.locked.take c (size + 8) = s₁ at *
    subst hheap
    split
    case isTrue => exact ⟨q, _, l.shrink htake.release hocc⟩
    case isFalse =>
      have hfront : Block.front ⟨p, size⟩ = c + (σ.heap.numBytes c - (size + 8)) := by
        rw [hp, Block.front]
        exact BitVec.add_sub_cancel ..
      have hbytes : Block.bytes ⟨p, size⟩ = region (c + (σ.heap.numBytes c - (size + 8))) (size + 8).toNat := by
        rw [Block.bytes, hfront, hsize]
      refine ⟨q, _, l.cut htake.release hocc ?_ (hbytes ▸ hcut) (hbytes ▸ hdis)⟩
      have hbound := fl.bounded c hmem
      have hext := σ.heap.numBytes_le_extent (c := c)
      have h0 := fl.ne_null hmem
      rw [hfront]
      generalize σ.heap.numBytes c = n at *
      constructor
      case left  => bv_omega
      case right => bv_omega

theorem freed (l : σ.Layout q cs) (hc : Careful σ (.free b)) (hb : b ∈ σ.live)
    (h : Alloc.free fuel σ.heap b.base = some heap) :
    σ.heap.memory.Changes heap.memory (σ.scope b) ∧
    Invariant { σ with heap, live := σ.live.erase b } := by
  have ⟨h24, hn, h16, hne, hadj⟩ := hc
  have ⟨h0, hbound⟩ := l.bounded b hb
  have fl := l.freeList
  rw [← Block.front_add] at h hn h16 hadj
  have hne (c : BitVec 64) (hc : c ∈ cs) := hne c (fl.mem_iff.mp hc)
  have hadj (c : BitVec 64) (hc : c ∈ cs) := hadj c (fl.mem_iff.mp hc)
  have ⟨hch, q', cs', fl', hocc, hq⟩ := State.FreeList.free_cases h24 hbound h0 hn fl hne hadj (l.free b hb) h16 h
  refine ⟨hch.mono ?_, q', cs', l.erase hb fl' hocc hq⟩
  exact Set.union_subset_union_right _ fun k ⟨c, hc, hk⟩ => ⟨c, fl.mem_iff.mp hc, hk⟩

theorem separate (l : σ.Layout q cs) : σ.Separate where
  headers := fun b hb c hc => by
    have hocc := State.region_subset_occupied (s := σ.heap) (l.freeList.mem_iff.mpr hc)
    exact (l.free b hb).mono Block.payload_subset (State.header_subset.trans hocc)
  blocks  := l.blocks.imp fun h => h.mono Block.payload_subset Block.payload_subset

end Layout

theorem start_invariant (h : heap.WellFormed) : (start heap).Invariant := by
  have ⟨cs, fl⟩ := h
  refine ⟨0, cs, fl, ?_, ?_, ?_, fun h => absurd rfl h⟩ <;> simp [start]

theorem step_invariant (inv : σ.Invariant) (hc : Careful σ a) (h : step fuel σ a = some σ') : σ'.Invariant := by
  have ⟨q, cs, l⟩ := inv
  cases a <;> simp only [step, Option.ite_none_right_eq_some] at h
  case allocate size =>
    have ⟨hs, h⟩ := h
    have ⟨⟨heap, p⟩, ha, h⟩ := Option.map_eq_some_iff.mp h
    subst h
    exact l.allocate hc hs ha
  case free b =>
    have ⟨hb, h⟩ := h
    have ⟨heap, hf, h⟩ := Option.map_eq_some_iff.mp h
    subst h
    exact (l.freed hc hb hf).right
  case write x v =>
    have ⟨⟨b, hb, hx⟩, h⟩ := h
    cases h
    exact ⟨q, cs, l.write hb hx⟩

theorem execution_invariant (h : heap.WellFormed) (e : Execution (step fuel) Careful (start heap) as σ) :
    σ.Invariant :=
  e.invariant (start_invariant h) (fun inv hc h => step_invariant inv hc h)

-- In every run that meets the condition, the blocks overlap neither with the headers of the chunks nor with each
-- other, and `free` stays within its scope.
theorem separate_of_careful (h : heap.WellFormed) (e : Execution (step fuel) Careful (start heap) as σ) :
    σ.Separate ∧ ∀ b, Careful σ (.free b) → ∀ σ', step fuel σ (.free b) = some σ' →
      σ.heap.memory.Changes σ'.heap.memory (σ.scope b) := by
  have ⟨q, cs, l⟩ := execution_invariant h e
  refine ⟨l.separate, fun b hc σ' h => ?_⟩
  simp only [step, Option.ite_none_right_eq_some] at h
  have ⟨hb, h⟩ := h
  have ⟨heap, hf, h⟩ := Option.map_eq_some_iff.mp h
  subst h
  exact (l.freed hc hb hf).left

-- The condition for a list that is known.
section Known

variable {size : BitVec 64} (h : Chain σ.heap.next 0 σ.heap.freeList cs)

include h

theorem careful_allocate (hc : ∀ c ∈ cs, size.toNat + 8 + 24 ≤ (σ.heap.numBytes c).toNat) :
    Careful σ (.allocate size) := by
  intro c ⟨pre, post, hchain, _⟩
  exact .inr <| hc c <| h.unique hchain ▸ by simp

theorem careful_free (hb : 24 ≤ b.size.toNat + 8 ∧ (σ.heap.blockSize b.base).toNat ≤ b.size.toNat + 8)
    (h0 : σ.heap.freeList ≠ 0)
    (hc : ∀ c ∈ cs, c + σ.heap.numBytes c ≠ b.front ∧ b.front + σ.heap.blockSize b.base ≠ c) :
    Careful σ (.free b) :=
  ⟨hb.left, hb.right, fun h => absurd h h0, fun c hl => (hc c <| h.mem_iff.mpr hl).left,
    fun c hl he => absurd he (hc c <| h.mem_iff.mpr hl).right⟩

end Known

-- Two blocks are taken from the end of a chunk, and the upper one of them is freed.
theorem separate_of_careful_blocks : ∃ σ, Execution (step 4) Careful (start (State.singleWith 64 128 168 24))
    [.allocate 16, .allocate 16, .free ⟨176, 16⟩] σ ∧ σ.live = [⟨152, 16⟩] ∧ σ.Separate := by
  have hd : Disjoint (header 64) (region 168 8) := disjoint_region (by decide) (by decide)
  have fl : (State.singleWith 64 128 168 24).FreeList 0 [64] := State.singleWith_freeList (by decide) (by decide) hd
  have hn : (State.singleWith 64 128 168 24).numBytes 64 = 128 := State.singleWith_numBytes hd
  have h : ∃ σ₁ ∈ step 4 (start (State.singleWith 64 128 168 24)) (.allocate 16),
      (σ₁.heap.freeList = 64 ∧ σ₁.heap.next 64 = 0 ∧ σ₁.heap.numBytes 64 = 104) ∧
      ∃ σ₂ ∈ step 4 σ₁ (.allocate 16),
        (σ₂.heap.freeList = 64 ∧ σ₂.heap.next 64 = 0 ∧ σ₂.heap.numBytes 64 = 80) ∧
        σ₂.heap.blockSize 176 = 24 ∧ ∃ σ₃ ∈ step 4 σ₂ (.free ⟨176, 16⟩), σ₃.live = [⟨152, 16⟩] := by
    decide +kernel
  have ⟨σ₁, h₁, ⟨hf₁, hl₁, hn₁⟩, σ₂, h₂, ⟨hf₂, hl₂, hn₂⟩, hs, σ₃, h₃, hlive⟩ := h
  have hc₁ : Chain σ₁.heap.next 0 σ₁.heap.freeList [64] := ⟨hf₁, by decide, hl₁⟩
  have hc₂ : Chain σ₂.heap.next 0 σ₂.heap.freeList [64] := ⟨hf₂, by decide, hl₂⟩
  have e₁ : Execution (step 4) Careful (start (State.singleWith 64 128 168 24)) [] _ := .refl
  have e₂ := e₁.snoc (careful_allocate fl.chain <| List.forall_mem_singleton.mpr <| by rw [start, hn]; decide) h₁
  have e₃ := e₂.snoc (careful_allocate hc₁ <| List.forall_mem_singleton.mpr <| by rw [hn₁]; decide) h₂
  have ho : Careful σ₂ (.free ⟨176, 16⟩) := by
    refine careful_free hc₂ ?_ ?_ <| List.forall_mem_singleton.mpr ?_
    case refine_1 => rw [hs]; decide
    case refine_2 => rw [hf₂]; decide
    case refine_3 => rw [hn₂, hs]; decide
  have e₄ := e₃.snoc ho h₃
  exact ⟨σ₃, e₄, hlive, separate_of_careful ⟨_, fl⟩ e₄ |>.left⟩

-- The last bytes of a chunk are handed out, although they belong to its header.
theorem not_separate : ¬∀ fuel heap as σ, State.WellFormed heap → (∀ c, heap.Listed c → 24 ≤ (heap.numBytes c).toNat) →
    Execution (step fuel) Execution.Free (start heap) as σ → σ.Separate := by
  intro h
  have fl : (State.single 64 24).FreeList 0 [64] := State.single_freeList (by decide) (by decide)
  have hstep : ∃ σ ∈ step 2 (start (State.single 64 24)) (.allocate 8),
      σ.live = [⟨80, 8⟩] ∧ σ.heap.freeList = 64 := by decide +kernel
  have ⟨σ, hσ, hlive, hf⟩ := hstep
  have hlarge (c : BitVec 64) (hc : (State.single 64 24).Listed c) : 24 ≤ ((State.single 64 24).numBytes c).toNat := by
    rw [List.mem_singleton.mp (fl.mem_iff.mpr hc), State.single_numBytes]
    decide
  have hs := h 2 _ _ σ ⟨_, fl⟩ hlarge (Execution.refl.snoc trivial hσ)
  have hlisted : σ.heap.Listed 64 := hf ▸ .head (by rw [hf]; decide)
  have hd := hs.headers ⟨80, 8⟩ (by simp [hlive]) 64 hlisted
  have hp : (80 : BitVec 64) ∈ Block.payload ⟨80, 8⟩ := self_mem_region (by decide)
  have hh : (80 : BitVec 64) ∈ header 64 := mem_region_iff (by decide) |>.mpr (by decide)
  exact Set.disjoint_left.mp hd hp hh

end System
end Alloc
