import Xesual.PhysicalMemory.Concurrent
import Xesual.PhysicalMemory.Theorems.Ownership

namespace PhysicalMemoryManagement

open Function

theorem State.FreeList.firstFit_of_findChunk {s : State} {cs : List Nat} {n fuel x : Nat}
    (fl : s.FreeList cs) (h : findChunk s n fuel s.freeList = some x) (hx : x ≠ 0) : s.FirstFit n x := by
  cases findChunk_spec fl.chain h
  case inl h => exact absurd h.left hx
  case inr h =>
    have ⟨pre, post, hcs, hpre, hle⟩ := h
    exact ⟨pre, post, hcs ▸ fl.chain, hpre, hle⟩

theorem State.FirstFit.listed {s : State} {n c : Nat} (h : s.FirstFit n c) : s.Listed c := by
  have ⟨_, _, hc, _⟩ := h
  exact hc.mem_iff.mp (by simp)

theorem State.FirstFit.le {s : State} {n c : Nat} (h : s.FirstFit n c) : n ≤ s.numPages c :=
  have ⟨_, _, _, _, hle⟩ := h
  hle

-- The search of `allocatePages` stops there.
theorem State.FirstFit.findChunk_eq {s : State} {n c fuel x : Nat} (h : s.FirstFit n c)
    (hf : findChunk s n fuel s.freeList = some x) : x = c := by
  obtain ⟨pre, post, hc, hpre, hle⟩ := h
  generalize s.freeList = p at hc hf
  induction fuel generalizing p pre
  case zero => contradiction
  case succ fuel ih =>
    cases pre
    case nil =>
      obtain ⟨hp, h0, -⟩ := hc
      simp only [findChunk, hp, h0, hle, ↓reduceIte, Option.some.injEq] at hf
      exact hf.symm
    case cons d pre =>
      obtain ⟨hp, h0, hc⟩ := hc
      have hd : ¬s.numPages d ≥ n := Nat.not_le.mpr (hpre d (by simp))
      simp only [findChunk, hp, h0, hd, ↓reduceIte] at hf
      exact ih pre (fun e he => hpre e (by simp [he])) _ hc hf

theorem State.single_ownership {r : Range} (v : r.Valid) (h : r.base ≠ 0) : (single r).Ownership [] where
  wellFormed := ⟨_, single_freeList v h⟩
  valid      := by simp
  disjoint   := by simp
  free       := by simp
  head       := fun _ => .inl (by simp [single, State.prev])

namespace Concurrent

-- The pages that have been taken from a chunk, but whose address has not been evaluated yet, are given by
-- their number and the chunk.
def Pc.taken : Pc → Option (Nat × Nat)
  | .releasing numPages chunk | .returning numPages chunk =>
    if chunk = 0 then none else some (numPages, chunk)
  | .idle | .acquiring _ | .searching _ => none

-- The processor is in between `acquire` and `release`.
def Pc.Locked : Pc → Prop
  | .searching _ | .releasing ..          => True
  | .idle | .acquiring _ | .returning ..  => False

-- The request that the processor is about to serve, and the chunk whose size it still has to read.
def Pc.request : Pc → Option Nat
  | .searching numPages => some numPages
  | .idle | .acquiring _ | .releasing .. | .returning .. => none

def Pc.chunk : Pc → Option Nat
  | .returning _ chunk => some chunk
  | .idle | .acquiring _ | .searching _ | .releasing .. => none

def Pc.Valid : Pc → Prop
  | .acquiring numPages | .searching numPages => 1 ≤ numPages
  | .idle | .releasing .. | .returning ..     => True

namespace Machine

variable {ι : Type} [DecidableEq ι] {σ σ' : Machine ι} {i j : ι} {is : List ι} {n c : Nat} {pc : Pc}

-- The range that the processor will return, provided that the size of the chunk does not change until then.
def reserved (σ : Machine ι) (i : ι) : Option Range :=
  (σ.pc i).taken.map fun (n, c) => ⟨c + 4096 * σ.memory.numPages c, n⟩

-- Everything that has been taken from the free list is held by the callers of `allocatePages` or reserved
-- by one of the processors in `is`.
structure Held (σ : Machine ι) (is : List ι) : Prop where
  nodup     : is.Nodup
  mem       : ∀ i, (σ.pc i).taken.isSome → i ∈ is
  ownership : σ.memory.Ownership (σ.returned ++ is.filterMap σ.reserved)

structure Invariant (σ : Machine ι) : Prop where
  valid : ∀ i, (σ.pc i).Valid
  lock  : ∀ i, (σ.pc i).Locked → σ.lock = some i
  apart : ∀ i j n m c, (σ.pc i).taken = some (n, c) → (σ.pc j).taken = some (m, c) → i = j
  held  : ∃ is, σ.Held is

-- The processor `i` can be singled out.
theorem Held.cons (h : σ.Held is) (i : ι) : ∃ is, σ.Held (i :: is) := by
  by_cases hi : i ∈ is
  case pos =>
    have hp := List.perm_cons_erase hi
    exact ⟨is.erase i, {
      nodup     := hp.nodup_iff.mp h.nodup
      mem       := fun j hj => hp.mem_iff.mp (h.mem j hj)
      ownership := h.ownership.perm <| (hp.filterMap _).append_left _
    }⟩
  case neg =>
    have hr : σ.reserved i = none := by
      cases ht : (σ.pc i).taken
      case none => simp [reserved, ht]
      case some => exact absurd (h.mem i (by simp [ht])) hi
    exact ⟨is, {
      nodup     := h.nodup.cons hi
      mem       := fun j hj => .tail _ (h.mem j hj)
      ownership := by simpa [hr] using h.ownership
    }⟩

-- The last pages of a chunk become reserved for `i`, and nothing changes for the other processors.
theorem Held.take (h : σ.Held (i :: is)) (hp : σ.pc i = .searching n) (hn : 1 ≤ n)
    (hf : σ.memory.FirstFit n c) (hc : c ≠ 0) (ha : ∀ j m, (σ.pc j).taken ≠ some (m, c)) :
    ({ σ with memory := σ.memory.take c n }.goto i (.releasing n c)).Held (i :: is) := by
  have hi := List.nodup_cons.mp h.nodup |>.left
  constructor
  case nodup => exact h.nodup
  case mem =>
    intro j hj
    by_cases hji : j = i
    case pos => simp [hji]
    case neg => exact h.mem j (by simpa [Machine.goto, hji] using hj)
  case ownership =>
    have hri : σ.reserved i = none := by simp [reserved, hp, Pc.taken]
    have hri' : ({ σ with memory := σ.memory.take c n }.goto i (.releasing n c)).reserved i =
        some (σ.memory.lastPages c n) := by
      simp [reserved, Machine.goto, Pc.taken, hc, State.take_numPages, State.lastPages]
    have hrj : is.filterMap ({ σ with memory := σ.memory.take c n }.goto i (.releasing n c)).reserved =
        is.filterMap σ.reserved := by
      apply List.filterMap_congr
      intro j hj
      simp only [reserved, Machine.goto, update_of_ne (ne_of_mem_of_not_mem hj hi), State.take_numPages]
      apply Option.map_congr
      rintro ⟨m, d⟩ hd
      have hdc : d ≠ c := fun he => ha j m (he ▸ hd)
      simp [update_of_ne hdc]
    have o := h.ownership
    rw [List.filterMap_cons_none hri] at o
    rw [List.filterMap_cons_some hri', hrj]
    exact (o.take hf.listed (Nat.lt_of_succ_le hn) hf.le).perm List.perm_middle.symm

-- What has been reserved for `i` is what it returns, unless the size of the chunk has changed.
theorem Held.returned (h : σ.Held (i :: is)) (hp : σ.pc i = .returning n c) (hc : c ≠ 0) :
    ({ σ with returned := ⟨σ.memory.returnAddress c, n⟩ :: σ.returned }.goto i .idle).Held is := by
  have hi := List.nodup_cons.mp h.nodup |>.left
  constructor
  case nodup => exact List.nodup_cons.mp h.nodup |>.right
  case mem =>
    intro j hj
    by_cases hji : j = i
    case pos => simp [Machine.goto, hji, Pc.taken] at hj
    case neg => exact List.mem_of_ne_of_mem hji <| h.mem j (by simpa [Machine.goto, hji] using hj)
  case ownership =>
    have o := h.ownership
    have hri : σ.reserved i = some ⟨c + 4096 * σ.memory.numPages c, n⟩ := by simp [reserved, hp, Pc.taken, hc]
    rw [List.filterMap_cons_some hri] at o
    have hrj : is.filterMap ({ σ with
        returned := ⟨σ.memory.returnAddress c, n⟩ :: σ.returned }.goto i .idle).reserved =
        is.filterMap σ.reserved := by
      apply List.filterMap_congr
      intro j hj
      simp only [reserved, Machine.goto, update_of_ne (ne_of_mem_of_not_mem hj hi)]
    have hb : σ.memory.returnAddress c = c + 4096 * σ.memory.numPages c := by
      have v := o.valid ⟨c + 4096 * σ.memory.numPages c, n⟩ (by simp)
      have := v.nonempty
      have := v.bounded
      simp only [State.returnAddress, wrap, PageSize_eq] at *
      omega
    rw [hrj, hb]
    exact o.perm List.perm_middle

omit [DecidableEq ι] in
theorem start_invariant {memory : State} (o : memory.Ownership []) :
    (start memory : Machine ι).Invariant where
  valid _   := trivial
  lock _ h  := h.elim
  apart     := by simp [start, Pc.taken]
  held      := ⟨[], List.nodup_nil, by simp [start, Pc.taken], o⟩

-- After a step of the processor `i`, the lock is held by the processor that is in the critical section.
theorem locked_update {lock : Option ι} (hi : pc.Locked → lock = some i)
    (hj : ∀ j, j ≠ i → (σ.pc j).Locked → lock = some j) (j : ι) :
    (update σ.pc i pc j).Locked → lock = some j :=
  forall_update_iff _ (fun j (p : Pc) => p.Locked → lock = some j) |>.mpr ⟨hi, hj⟩ j

namespace Invariant

theorem valid_update (inv : σ.Invariant) (hv : pc.Valid) (j : ι) : (update σ.pc i pc j).Valid :=
  forall_update_iff _ (fun _ (p : Pc) => p.Valid) |>.mpr ⟨hv, fun j _ => inv.valid j⟩ j

-- A step that neither takes nor returns pages.
theorem goto {lock : Option ι} (inv : σ.Invariant) (ht : pc.taken = (σ.pc i).taken) (hv : pc.Valid)
    (hl : ∀ j, (update σ.pc i pc j).Locked → lock = some j) :
    ({ σ with lock }.goto i pc).Invariant := by
  have htaken (j : ι) : (update σ.pc i pc j).taken = (σ.pc j).taken := by
    by_cases hj : j = i
    case pos => rw [hj, update_self, ht]
    case neg => rw [update_of_ne hj]
  have ⟨is, h⟩ := inv.held
  constructor
  case valid => exact inv.valid_update hv
  case lock  => exact hl
  case apart => simpa only [Machine.goto, htaken] using inv.apart
  case held  =>
    refine ⟨is, h.nodup, by simpa only [Machine.goto, htaken] using h.mem, ?_⟩
    have : ({ σ with lock }.goto i pc).reserved = σ.reserved := by
      funext j
      simp only [reserved, Machine.goto, htaken]
    exact this ▸ h.ownership

-- The processor that holds the lock takes pages from a chunk.
theorem take (inv : σ.Invariant) (hp : σ.pc i = .searching n) (hf : σ.memory.FirstFit n c) (hc : c ≠ 0)
    (ha : ∀ j m, (σ.pc j).taken ≠ some (m, c)) :
    ({ σ with memory := σ.memory.take c n }.goto i (.releasing n c)).Invariant := by
  have hn : (Pc.searching n).Valid := hp ▸ inv.valid i
  have htaken {j : ι} {m d : Nat} (h : (update σ.pc i (.releasing n c) j).taken = some (m, d)) :
      (j = i ∧ d = c) ∨ (σ.pc j).taken = some (m, d) := by
    by_cases hj : j = i
    case pos =>
      simp only [hj, update_self, Pc.taken, hc, ↓reduceIte, Option.some.injEq, Prod.mk.injEq] at h
      exact .inl ⟨hj, h.right.symm⟩
    case neg => exact .inr (by rwa [update_of_ne hj] at h)
  obtain ⟨_, h⟩ := inv.held
  obtain ⟨is, h⟩ := h.cons i
  constructor
  case valid => exact inv.valid_update trivial
  case lock  => exact locked_update (fun _ => inv.lock i (hp ▸ trivial)) (fun j _ => inv.lock j)
  case apart =>
    intro j k m m' d hj hk
    cases htaken hj <;> cases htaken hk
    case inl.inl hj hk => exact hj.left.trans hk.left.symm
    case inl.inr hj hk => exact absurd (hj.right ▸ hk) (ha k m')
    case inr.inl hj hk => exact absurd (hk.right ▸ hj) (ha j m)
    case inr.inr hj hk => exact inv.apart j k m m' d hj hk
  case held => exact ⟨_, h.take hp hn hf hc ha⟩

-- A processor evaluates its return address.
theorem returned (inv : σ.Invariant) (hp : σ.pc i = .returning n c) (hc : c ≠ 0) :
    ({ σ with returned := ⟨σ.memory.returnAddress c, n⟩ :: σ.returned }.goto i .idle).Invariant := by
  have htaken {j : ι} {p : Nat × Nat} (h : (update σ.pc i .idle j).taken = some p) :
      (σ.pc j).taken = some p := by
    by_cases hj : j = i
    case pos => simp [hj, Pc.taken] at h
    case neg => rwa [update_of_ne hj] at h
  have ⟨_, h⟩ := inv.held
  have ⟨is, h⟩ := h.cons i
  constructor
  case valid => exact inv.valid_update trivial
  case lock  => exact locked_update False.elim (fun j _ => inv.lock j)
  case apart => exact fun j k m m' d hj hk => inv.apart j k m m' d (htaken hj) (htaken hk)
  case held  => exact ⟨_, h.returned hp hc⟩

end Invariant

theorem step_invariant {fuel : Nat} {a : Action ι} (inv : σ.Invariant) (ha : Apart σ a)
    (h : step fuel σ a = some σ') : σ'.Invariant := by
  -- The lock is not affected by a step of a processor that does not hold it.
  have hlock {i : ι} {pc : Pc} (hl : ¬pc.Locked) :
      ∀ j, (update σ.pc i pc j).Locked → σ.lock = some j :=
    locked_update (absurd · hl) (fun j _ => inv.lock j)
  cases a
  case call i n =>
    cases hp : σ.pc i <;> simp only [step, hp, Option.ite_none_right_eq_some, reduceCtorEq] at h
    case idle =>
      have ⟨hn, h⟩ := h
      cases h
      exact inv.goto (by simp [hp, Pc.taken]) hn (hlock id)
  case proceed i =>
    cases hp : σ.pc i <;>
      simp only [step, hp, Option.ite_none_right_eq_some, Option.some.injEq, reduceCtorEq] at h
    case acquiring n =>
      have ⟨hl, h⟩ := h
      have hv : (Pc.acquiring n).Valid := hp ▸ inv.valid i
      subst h
      refine inv.goto (by simp [hp, Pc.taken]) hv ?_
      apply locked_update (fun _ => rfl)
      intro j _ hj
      simp [inv.lock j hj] at hl
    case searching n =>
      have ⟨c, hc, h⟩ := Option.map_eq_some_iff.mp h
      subst h
      have ⟨_, hh⟩ := inv.held
      have ⟨cs, fl⟩ := hh.ownership.wellFormed
      by_cases h0 : c = 0 <;> simp only [h0, ↓reduceIte]
      case pos =>
        refine inv.goto (by simp [hp, Pc.taken]) trivial ?_
        exact locked_update (fun _ => inv.lock i (hp ▸ trivial)) (fun j _ => inv.lock j)
      case neg =>
        have hf := fl.firstFit_of_findChunk hc h0
        refine inv.take hp hf h0 ?_
        intro j m ht
        cases hj : σ.pc j <;> simp only [hj, Pc.taken, reduceCtorEq, Option.ite_none_left_eq_some,
          Option.some.injEq, Prod.mk.injEq] at ht
        case releasing =>
          -- There is no other processor in the critical section.
          have := inv.lock i (hp ▸ trivial)
          cases this.symm.trans <| inv.lock j (hj ▸ trivial)
          exact absurd (hp.symm.trans hj) (by simp)
        case returning => exact ha n hp j _ c (ht.right.right ▸ hj) hf
    case releasing n c =>
      subst h
      refine inv.goto (by simp [hp, Pc.taken]) trivial ?_
      apply locked_update False.elim
      intro j hji hj
      have := inv.lock i (hp ▸ trivial)
      cases this.symm.trans <| inv.lock j hj
      contradiction
    case returning n c =>
      subst h
      by_cases h0 : c = 0 <;> simp only [h0, ↓reduceIte]
      case pos => exact inv.goto (by simp [hp, h0, Pc.taken]) trivial (hlock id)
      case neg => exact inv.returned hp h0

-- In every execution in which no request is served from a chunk whose size has yet to be read by another
-- processor, the results of concurrent calls are disjoint.
theorem returned_disjoint_of_apart {fuel : Nat} {memory : State} {as : List (Action ι)}
    (o : memory.Ownership []) (e : Execution (step fuel) Apart (start memory) as σ) : σ.Exclusive := by
  have inv := e.invariant (start_invariant o) step_invariant
  have ⟨is, h⟩ := inv.held
  have o := h.ownership
  exact ⟨List.pairwise_append.mp o.disjoint |>.left, fun r hr => o.free r (List.mem_append_left _ hr)⟩

section Evaluation

-- The condition for two processors, to evaluate it.
def checked (fuel : Nat) (σ : Machine (Fin 2)) : Action (Fin 2) → Bool
  | .call ..   => true
  | .proceed i => (σ.pc i).request.all fun n => (List.finRange 2).all fun j => (σ.pc j).chunk.all fun c =>
    (findChunk σ.memory n fuel σ.memory.freeList).any (· != c)

theorem apart_of_checked {fuel : Nat} {σ : Machine (Fin 2)} {a : Action (Fin 2)} (h : checked fuel σ a) : Apart σ a := by
  cases a
  case call      => trivial
  case proceed i =>
    intro n hi j m c hj hfit
    simp only [checked, hi, Pc.request, Option.all_some, List.all_eq_true] at h
    have h := h j (List.mem_finRange j)
    rw [hj, Pc.chunk, Option.all_some, Option.any_eq_true] at h
    obtain ⟨x, hx, hne⟩ := h
    exact bne_iff_ne.mp hne (hfit.findChunk_eq hx)

-- A free list of two chunks with two and four pages.
def twoChunks : State where
  chunk a  :=
    if a = 0xffff800000100000 then ⟨0xffff800000200000, 0, 2⟩
    else if a = 0xffff800000200000 then ⟨0, 0xffff800000100000, 4⟩
    else ⟨0, 0, 0⟩
  freeList := 0xffff800000100000

theorem twoChunks_ownership : twoChunks.Ownership [] where
  wellFormed := ⟨[0xffff800000100000, 0xffff800000200000],
    ⟨by decide, by decide, by decide, by decide, by decide, by decide⟩⟩
  valid      := by simp
  disjoint   := by simp
  free       := by simp
  head _     := .inl (by decide)

-- Two processors call `allocatePages`. The first one has released the lock, but not yet evaluated its return address,
-- while the second one acquires the lock and takes its pages from the other chunk.
theorem returned_disjoint_of_apart_twoChunks : ∃ σ, Execution (step 3) Apart (start twoChunks)
      [ .call 0 1, .call 1 2, .proceed 0, .proceed 0, .proceed 0, .proceed 1, .proceed 1, .proceed 1, .proceed 0,
        .proceed (1 : Fin 2) ] σ ∧
    σ.returned = [⟨0xffff800000202000, 2⟩, ⟨0xffff800000101000, 1⟩] ∧ σ.Exclusive := by
  have h : ∃ σ ∈ Execution.runIf (step 3) (checked 3 · ·) (start twoChunks)
      [ .call 0 1, .call 1 2, .proceed 0, .proceed 0, .proceed 0, .proceed 1, .proceed 1, .proceed 1, .proceed 0,
        .proceed 1 ], σ.returned = [⟨0xffff800000202000, 2⟩, ⟨0xffff800000101000, 1⟩] := by decide +kernel
  obtain ⟨σ, hσ, hr⟩ := h
  have e := (Execution.of_runIf hσ).weaken fun _ _ => apart_of_checked
  exact ⟨σ, e, hr, returned_disjoint_of_apart twoChunks_ownership e⟩

end Evaluation

-- When a second processor takes a page of the same chunk before the first one evaluates its return address,
-- then both of them return the lower page.
theorem not_returned_disjoint : ¬∀ (fuel : Nat) (memory : State) (as : List (Action (Fin 2)))
    (σ : Machine (Fin 2)), memory.Ownership [] → Execution (step fuel) Execution.Free (start memory) as σ →
      σ.Exclusive := by
  intro h
  have hr : (Execution.run (step 2) (start (State.single ⟨0xffff800000100000, 2⟩) : Machine (Fin 2))
      [.call 0 1, .call 1 1, .proceed 0, .proceed 0, .proceed 0, .proceed 1, .proceed 1, .proceed 1,
        .proceed 0, .proceed 1]).map (·.returned) =
      some [⟨0xffff800000100000, 1⟩, ⟨0xffff800000100000, 1⟩] := by decide
  have ⟨σ, hr, ho⟩ := Option.map_eq_some_iff.mp hr
  have o := State.single_ownership (r := ⟨0xffff800000100000, 2⟩) (by decide) (by decide)
  have := h _ _ _ σ o (Execution.of_run hr) |>.returned
  rw [ho] at this
  exact absurd this (by decide)

end Machine
end Concurrent
end PhysicalMemoryManagement
