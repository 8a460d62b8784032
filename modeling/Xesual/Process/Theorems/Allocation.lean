import Xesual.Process.Allocation

namespace ProcessManagement.Allocation

open Function
open VirtualMemoryManagement (Platform PageTableRef shallowCopy allocatePage)

variable {π : Platform} {KernelPageTable : PageTableRef}

namespace System

variable {σ : System} {p q : Slot} {f : ProcessInfo → ProcessInfo} {page : BitVec 64}

@[simp]
theorem modify_self : (σ.modify p f).table p = f (σ.table p) := by
  simp [modify]

theorem modify_of_ne (h : q ≠ p) : (σ.modify p f).table q = σ.table q := by
  simp [modify, h]

@[simp]
theorem modify_taken : (σ.modify p f).taken = σ.taken := rfl

@[simp]
theorem take_table : (σ.take page).table = σ.table := rfl

theorem findUnused_eq_none (h : σ.findUnused = none) : (σ.table p).state ≠ .unused := by
  have := List.find?_eq_none.mp h p (List.mem_finRange p)
  simpa using this

theorem findUnused_eq_some (h : σ.findUnused = some p) : (σ.table p).state = .unused := by
  simpa using List.find?_some h

theorem scan_of_none (h : σ.findUnused = none) : σ.scan π KernelPageTable = (σ, none) := by
  rw [scan, h]

-- The slot that is found under the lock is reserved.
section Scan

variable (h : σ.findUnused = some p)
include h

theorem scan_eq : σ.scan π KernelPageTable =
    (({ σ with
        memory := (shallowCopy π σ.memory KernelPageTable).fst
        copied := π.page σ.memory.allocated :: σ.copied }.take (π.page σ.memory.allocated)).modify p
      ({ · with pageTable := π.page σ.memory.allocated, state := .fresh }), some p) := by
  rw [scan, h]
  rfl

theorem scan_snd : (σ.scan π KernelPageTable).snd = some p := by
  rw [scan_eq h]

theorem scan_state : ((σ.scan π KernelPageTable).fst.table p).state = .fresh := by
  rw [scan_eq h]
  simp only [modify_self]

end Scan

-- Only the slot `p` is changed.
def Within (p : Slot) (σ σ' : System) : Prop :=
  ∀ q, q ≠ p → σ'.table q = σ.table q

theorem Within.eq_of_ne {σ' : System} (h : σ.Within p σ') (hq : σ'.table q ≠ σ.table q) : q = p := by
  by_contra hn
  exact hq (h q hn)

theorem within_modify : σ.Within p (σ.modify p f) :=
  fun _ => modify_of_ne

theorem within_scan (h : σ.findUnused = some p) : σ.Within p (σ.scan π KernelPageTable).fst := by
  intro q hq
  rw [scan_eq h]
  simp only [modify_of_ne hq, take_table]

theorem within_setKernelStack : σ.Within p (σ.setKernelStack π p) := by
  intro q hq
  simp only [setKernelStack, modify_of_ne hq, take_table]

@[simp]
theorem setKernelStack_kernelStack :
    ((σ.setKernelStack π p).table p).kernelStack = (allocatePage π σ.memory).snd := by
  simp [setKernelStack]

-- The states of the slots are not changed when the other fields are assigned to.
theorem setKernelStack_state : ((σ.setKernelStack π p).table q).state = (σ.table q).state := by
  by_cases hq : q = p
  case pos => simp [hq, setKernelStack]
  case neg => rw [within_setKernelStack q hq]

theorem modify_state (h : ∀ info, (f info).state = info.state) :
    ((σ.modify p f).table q).state = (σ.table q).state := by
  by_cases hq : q = p
  case pos => simp [hq, h]
  case neg => rw [modify_of_ne hq]

variable {stackPointer : BitVec 64}

theorem setTrapFrame_state : ((σ.setTrapFrame p stackPointer).table q).state = (σ.table q).state :=
  modify_state fun _ => rfl

theorem setKernelTask_state : ((σ.setKernelTask p stackPointer).table q).state = (σ.table q).state :=
  modify_state fun _ => rfl

@[simp]
theorem abandon_state : ((σ.abandon p).table p).state = .unused := by
  simp [abandon]

@[simp]
theorem freeProcess_state : ((σ.freeProcess p).table p).state = .unused := by
  simp [freeProcess]

theorem within_setTrapFrame : σ.Within p (σ.setTrapFrame p stackPointer) :=
  within_modify

theorem within_setKernelTask : σ.Within p (σ.setKernelTask p stackPointer) :=
  within_modify

theorem within_abandon : σ.Within p (σ.abandon p) :=
  within_modify

theorem within_freeProcess : σ.Within p (σ.freeProcess p) := by
  intro q hq
  simp only [freeProcess, modify_of_ne hq]

end System

-- Who is responsible for a slot. A slot that has been returned belongs to the caller until `freeProcess` is called.
inductive Owner (ι : Type)
  | nobody
  | allocating (i : ι)
  | caller
  | freeing (i : ι)

-- The slot that a processor has reserved and not returned yet, and the one that it is about to free.
@[simp]
def Pc.reserves : Pc → Option Slot
  | .allocating p | .checking p | .abandoning p | .pointing p | .framing p _ | .tasking p _ => some p
  | .returning p => p
  | _ => none

@[simp]
def Pc.frees : Pc → Option Slot
  | .freeing p => some p
  | _ => none

-- What a processor knows about its current call of `allocateProcess`.
structure CPUState.Valid (c : CPUState) (table : Slot → ProcessInfo) : Prop where
  reserved   : ∀ p, c.pc.reserves = some p → c.reserved = some p
  checking   : ∀ p, c.pc = .checking p → c.stack = some (table p).kernelStack
  abandoning : ∀ p, c.pc = .abandoning p → c.stack = some 0
  nullptr    : c.pc = .returning none → (∀ p, c.seen p ≠ .unused) ∨ c.stack = some 0

namespace Machine

variable {ι : Type} [DecidableEq ι] {σ σ' : Machine ι} {a : Action ι} {i j : ι} {p q : Slot}

-- What ties a slot to its owner.
structure OwnedBy (σ : Machine ι) (p : Slot) (o : Owner ι) : Prop where
  unused   : (σ.system.table p).state = .unused ↔ o = .nobody
  reserves : ∀ i, (σ.cpu i).pc.reserves = some p ↔ o = .allocating i
  frees    : ∀ i, (σ.cpu i).pc.frees = some p ↔ o = .freeing i
  owned    : p ∈ σ.owned ↔ o = .caller
  returned : p ∈ σ.returned ↔ o = .caller ∨ ∃ i, o = .freeing i

-- Every slot has exactly one owner.
structure Owned (σ : Machine ι) (owner : Slot → Owner ι) : Prop where
  slots : ∀ p, σ.OwnedBy p (owner p)
  nodup : σ.owned.Nodup ∧ σ.returned.Nodup

structure Invariant (σ : Machine ι) : Prop where
  owned : ∃ owner, σ.Owned owner
  valid : ∀ i, (σ.cpu i).Valid σ.system.table

omit [DecidableEq ι] in
theorem start_invariant {memory : VirtualMemoryManagement.State} : (start memory : Machine ι).Invariant where
  owned := ⟨fun _ => .nobody, fun _ => ⟨by simp [start, System.start], by simp [start], by simp [start],
    by simp [start], by simp [start]⟩, by simp [start]⟩
  valid := fun _ => ⟨by simp [start], by simp [start], by simp [start], by simp [start]⟩

section Owned

variable {owner : Slot → Owner ι} {system : System} {c : CPUState}

@[simp]
theorem setCPU_self : (σ.setCPU i c).cpu i = c :=
  update_self ..

theorem setCPU_of_ne (h : j ≠ i) : (σ.setCPU i c).cpu j = σ.cpu j :=
  update_of_ne h ..

-- A step by which no slot gets another owner.
theorem Owned.keep (h : σ.Owned owner) (ht : ∀ q, (system.table q).state = (σ.system.table q).state)
    (hr : c.pc.reserves = (σ.cpu i).pc.reserves) (hf : c.pc.frees = (σ.cpu i).pc.frees) :
    ({ σ with system }.setCPU i c).Owned owner where
  nodup := h.nodup
  slots := by
    intro q
    have hq := h.slots q
    constructor
    case unused   => exact (congrArg (· = .unused) (ht q)).to_iff.trans hq.unused
    case owned    => exact hq.owned
    case returned => exact hq.returned
    case reserves =>
      intro j
      by_cases hj : j = i
      case pos => rw [hj, setCPU_self, hr, hq.reserves]
      case neg => rw [setCPU_of_ne hj, hq.reserves]
    case frees =>
      intro j
      by_cases hj : j = i
      case pos => rw [hj, setCPU_self, hf, hq.frees]
      case neg => rw [setCPU_of_ne hj, hq.frees]

-- The slot `p` passes from one owner to another one by a step of the processor `i`, which is not concerned with any
-- other slot.
structure Transfer (σ : Machine ι) (i : ι) (p : Slot) (c : CPUState) (o o' : Owner ι) : Prop where
  reserves  : c.pc.reserves = some p ↔ o' = .allocating i
  frees     : c.pc.frees = some p ↔ o' = .freeing i
  only      : ∀ q, q ≠ p → (c.pc.reserves ≠ some q ∧ c.pc.frees ≠ some q) ∧
    (σ.cpu i).pc.reserves ≠ some q ∧ (σ.cpu i).pc.frees ≠ some q
  otherwise : ∀ j, j ≠ i → (o ≠ .allocating j ∧ o ≠ .freeing j) ∧ o' ≠ .allocating j ∧ o' ≠ .freeing j

theorem Owned.transfer {o : Owner ι} {owned returned : List Slot} (h : σ.Owned owner)
    (t : σ.Transfer i p c (owner p) o) (hp : σ.system.Within p system)
    (hu : (system.table p).state = .unused ↔ o = .nobody)
    (hc : ∀ q, q ∈ owned ↔ if q = p then o = .caller else q ∈ σ.owned)
    (hr : ∀ q, q ∈ returned ↔ if q = p then o = .caller ∨ ∃ j, o = .freeing j else q ∈ σ.returned)
    (nodup : owned.Nodup ∧ returned.Nodup) :
    ({ σ with system, owned, returned }.setCPU i c).Owned (update owner p o) where
  nodup := nodup
  slots := by
    intro q
    have hs := h.slots q
    by_cases hq : q = p
    case pos =>
      subst hq
      rw [update_self]
      constructor
      case unused   => exact hu
      case owned    => exact (hc q).trans (if_pos rfl).to_iff
      case returned => exact (hr q).trans (if_pos rfl).to_iff
      case reserves =>
        intro j
        by_cases hj : j = i
        case pos => rw [hj, setCPU_self, t.reserves]
        case neg =>
          have ⟨hn, hn'⟩ := t.otherwise j hj
          rw [setCPU_of_ne hj, hs.reserves]
          exact iff_of_false hn.left hn'.left
      case frees =>
        intro j
        by_cases hj : j = i
        case pos => rw [hj, setCPU_self, t.frees]
        case neg =>
          have ⟨hn, hn'⟩ := t.otherwise j hj
          rw [setCPU_of_ne hj, hs.frees]
          exact iff_of_false hn.right hn'.right
    case neg =>
      -- All other slots keep their owners.
      rw [update_of_ne hq]
      have ⟨hn, hn'⟩ := t.only q hq
      constructor
      case unused   => exact (congrArg (·.state = .unused) (hp q hq)).to_iff.trans hs.unused
      case owned    => exact ((hc q).trans (if_neg hq).to_iff).trans hs.owned
      case returned => exact ((hr q).trans (if_neg hq).to_iff).trans hs.returned
      case reserves =>
        intro j
        rw [← hs.reserves]
        by_cases hj : j = i
        case pos => rw [hj, setCPU_self]; exact iff_of_false hn.left hn'.left
        case neg => rw [setCPU_of_ne hj]
      case frees =>
        intro j
        rw [← hs.frees]
        by_cases hj : j = i
        case pos => rw [hj, setCPU_self]; exact iff_of_false hn.right hn'.right
        case neg => rw [setCPU_of_ne hj]

omit [DecidableEq ι] in
theorem mem_iff_ite {l : List Slot} {P : Prop} (h : p ∈ l ↔ P) (q : Slot) :
    q ∈ l ↔ if q = p then P else q ∈ l := by
  split
  case isTrue hq => rw [hq, h]
  case isFalse   => rfl

omit [DecidableEq ι] in
theorem mem_cons_iff_ite {l : List Slot} {P : Prop} (h : P) (q : Slot) :
    q ∈ p :: l ↔ if q = p then P else q ∈ l := by
  by_cases hq : q = p <;> simp [hq, h]

omit [DecidableEq ι] in
theorem mem_erase_iff_ite {l : List Slot} {P : Prop} (hl : l.Nodup) (h : ¬P) (q : Slot) :
    q ∈ l.erase p ↔ if q = p then P else q ∈ l := by
  by_cases hq : q = p <;> simp [hl.mem_erase_iff, hq, h]

-- `allocateProcess` reserves an unused slot.
theorem Owned.reserve (h : σ.Owned owner) (hp : σ.system.Within p system)
    (hu : (σ.system.table p).state = .unused) (hs : (system.table p).state ≠ .unused)
    (hi : (σ.cpu i).pc.reserves = none) (hf : (σ.cpu i).pc.frees = none) (hr : c.pc.reserves = some p)
    (hr' : c.pc.frees = none) : ({ σ with system }.setCPU i c).Owned (update owner p (.allocating i)) := by
  have ho : owner p = .nobody := (h.slots p).unused.mp hu
  refine h.transfer ?transfer hp (iff_of_false hs nofun) (mem_iff_ite ?owned) (mem_iff_ite ?returned) h.nodup
  case transfer =>
    constructor
    case reserves  => exact iff_of_true hr rfl
    case frees     => exact iff_of_false (by rw [hr']; simp) nofun
    case only      => intro q hq; rw [hr, hr', hi, hf]; simp [hq.symm]
    case otherwise => exact fun j hj => by simp [ho, hj.symm]
  case owned    => simp [(h.slots p).owned, ho]
  case returned => simp [(h.slots p).returned, ho]

-- The slot is given up again if there is no kernel stack.
theorem Owned.abandon (h : σ.Owned owner) (hp : σ.system.Within p system)
    (hs : (system.table p).state = .unused) (hi : (σ.cpu i).pc.reserves = some p)
    (hf : (σ.cpu i).pc.frees = none) (hr : c.pc.reserves = none) (hr' : c.pc.frees = none) :
    ({ σ with system }.setCPU i c).Owned (update owner p .nobody) := by
  have ho : owner p = .allocating i := ((h.slots p).reserves i).mp hi
  refine h.transfer ?transfer hp (iff_of_true hs rfl) (mem_iff_ite ?owned) (mem_iff_ite ?returned) h.nodup
  case transfer =>
    constructor
    case reserves  => exact iff_of_false (by rw [hr]; simp) nofun
    case frees     => exact iff_of_false (by rw [hr']; simp) nofun
    case only      => intro q hq; rw [hr, hr', hi, hf]; simp [hq.symm]
    case otherwise => exact fun j hj => by simp [ho, hj.symm]
  case owned    => simp [(h.slots p).owned, ho]
  case returned => simp [(h.slots p).returned, ho]

-- `freeProcess` is executed.
theorem Owned.free (h : σ.Owned owner) (hp : σ.system.Within p system)
    (hs : (system.table p).state = .unused) (hi : (σ.cpu i).pc.frees = some p)
    (hf : (σ.cpu i).pc.reserves = none) (hr : c.pc.reserves = none) (hr' : c.pc.frees = none) :
    ({ σ with system, returned := σ.returned.erase p }.setCPU i c).Owned (update owner p .nobody) := by
  have ho : owner p = .freeing i := ((h.slots p).frees i).mp hi
  have ⟨nodup, nodup'⟩ := h.nodup
  refine h.transfer ?transfer hp (iff_of_true hs rfl) (mem_iff_ite ?owned) (mem_erase_iff_ite nodup' nofun)
    ⟨nodup, nodup'.erase p⟩
  case transfer =>
    constructor
    case reserves  => exact iff_of_false (by rw [hr]; simp) nofun
    case frees     => exact iff_of_false (by rw [hr']; simp) nofun
    case only      => intro q hq; rw [hr, hr', hi, hf]; simp [hq.symm]
    case otherwise => exact fun j hj => by simp [ho, hj.symm]
  case owned => simp [(h.slots p).owned, ho]

-- The slot is returned to the caller of `allocateProcess`.
theorem Owned.return (h : σ.Owned owner) (hi : (σ.cpu i).pc.reserves = some p) (hf : (σ.cpu i).pc.frees = none)
    (hr : c.pc.reserves = none) (hr' : c.pc.frees = none) :
    ({ σ with returned := p :: σ.returned, owned := p :: σ.owned }.setCPU i c).Owned (update owner p .caller) := by
  have ho : owner p = .allocating i := ((h.slots p).reserves i).mp hi
  have ⟨nodup, nodup'⟩ := h.nodup
  -- It is neither owned by a caller nor about to be freed, so it has not been returned before.
  have hn : p ∉ σ.owned := by simp [(h.slots p).owned, ho]
  have hn' : p ∉ σ.returned := by simp [(h.slots p).returned, ho]
  have hu : (σ.system.table p).state ≠ .unused := by simp [(h.slots p).unused, ho]
  refine h.transfer ?transfer (fun _ _ => rfl) (iff_of_false hu nofun) (mem_cons_iff_ite rfl)
    (mem_cons_iff_ite (.inl rfl)) ⟨nodup.cons hn, nodup'.cons hn'⟩
  case transfer =>
    constructor
    case reserves  => exact iff_of_false (by rw [hr]; simp) nofun
    case frees     => exact iff_of_false (by rw [hr']; simp) nofun
    case only      => intro q hq; rw [hr, hr', hi, hf]; simp [hq.symm]
    case otherwise => exact fun j hj => by simp [ho, hj.symm]

-- The caller passes the slot to `freeProcess`.
theorem Owned.freeProcess (h : σ.Owned owner) (hc : p ∈ σ.owned) (hi : (σ.cpu i).pc.reserves = none)
    (hf : (σ.cpu i).pc.frees = none) (hr : c.pc.reserves = none) (hr' : c.pc.frees = some p) :
    ({ σ with owned := σ.owned.erase p }.setCPU i c).Owned (update owner p (.freeing i)) := by
  have ho : owner p = .caller := (h.slots p).owned.mp hc
  have ⟨nodup, nodup'⟩ := h.nodup
  have hu : (σ.system.table p).state ≠ .unused := by simp [(h.slots p).unused, ho]
  refine h.transfer ?transfer (fun _ _ => rfl) (iff_of_false hu nofun) (mem_erase_iff_ite nodup nofun)
    (mem_iff_ite ?returned) ⟨nodup.erase p, nodup'⟩
  case transfer =>
    constructor
    case reserves  => exact iff_of_false (by rw [hr]; simp) nofun
    case frees     => exact iff_of_true hr' rfl
    case only      => intro q hq; rw [hr, hr', hi, hf]; simp [hq.symm]
    case otherwise => exact fun j hj => by simp [ho, hj.symm]
  case returned => simp [(h.slots p).returned, ho]

-- The caller may change the state of its slot.
omit [DecidableEq ι] in
theorem Owned.mark (h : σ.Owned owner) (hp : σ.system.Within p system) (hc : p ∈ σ.owned)
    (hs : (system.table p).state ≠ .unused) : { σ with system }.Owned owner where
  nodup := h.nodup
  slots := by
    intro q
    have ⟨unused, reserves, frees, owned, returned⟩ := h.slots q
    refine ⟨?_, reserves, frees, owned, returned⟩
    by_cases hq : q = p
    case pos =>
      have ho : owner p = .caller := (h.slots p).owned.mp hc
      exact hq ▸ iff_of_false hs (by simp [ho])
    case neg => exact (congrArg (·.state = .unused) (hp q hq)).to_iff.trans unused

-- A processor relies on the slot that it has reserved, which is only changed by itself.
theorem Owned.valid (h : σ.Owned owner) (hv : ∀ j, (σ.cpu j).Valid σ.system.table)
    (ht : ∀ j q, j ≠ i → owner q = .allocating j → system.table q = σ.system.table q) (hc : c.Valid system.table)
    (j : ι) : (update σ.cpu i c j).Valid system.table := by
  by_cases hj : j = i
  case pos => rwa [hj, update_self]
  case neg =>
    have hv := hv j
    rw [update_of_ne hj]
    refine ⟨hv.reserved, fun q hq => ?_, hv.abandoning, hv.nullptr⟩
    rw [ht j q hj <| ((h.slots q).reserves j).mp (by simp [hq])]
    exact hv.checking q hq

end Owned

-- A step of a processor that only changes the slot `p`, which does not belong to another processor.
theorem Invariant.of_owned {owner owner' : Slot → Owner ι} {system : System} {c : CPUState} (inv : σ.Invariant)
    (h : σ.Owned owner) (within : σ.system.Within p system) (apart : ∀ j, j ≠ i → owner p ≠ .allocating j)
    (owned : σ'.Owned owner') (hs : σ'.system = system) (hc : σ'.cpu = update σ.cpu i c)
    (valid : c.Valid system.table) : σ'.Invariant where
  owned := ⟨owner', owned⟩
  valid := by
    rw [hc, hs]
    exact h.valid inv.valid (fun j q hj hq => within q fun he => apart j hj (he ▸ hq)) valid

-- The slot that a processor has reserved does not belong to another one.
omit [DecidableEq ι] in
theorem Owned.apart {owner : Slot → Owner ι} (h : σ.Owned owner) (hi : (σ.cpu i).pc.reserves = some p)
    (j : ι) (hj : j ≠ i) : owner p ≠ .allocating j := by
  rw [((h.slots p).reserves i).mp hi]
  exact fun he => hj (Owner.allocating.inj he).symm

-- A step with which the processor keeps its slot.
theorem Invariant.keep {system : System} {c : CPUState} (inv : σ.Invariant) (hi : (σ.cpu i).pc.reserves = some p)
    (within : σ.system.Within p system) (ht : ∀ q, (system.table q).state = (σ.system.table q).state)
    (hr : c.pc.reserves = some p) (hf : c.pc.frees = (σ.cpu i).pc.frees) (valid : c.Valid system.table) :
    ({ σ with system }.setCPU i c).Invariant :=
  have ⟨_, ho⟩ := inv.owned
  inv.of_owned ho within (ho.apart hi) (ho.keep ht (hr.trans hi.symm) hf) rfl rfl valid

theorem scan_invariant (inv : σ.Invariant) (hi : (σ.cpu i).pc = .scanning)
    (h : proceed π KernelPageTable σ i = some σ') : σ'.Invariant := by
  have ⟨owner, ho⟩ := inv.owned
  cases hs : σ.system.findUnused
  case none =>
    simp only [proceed, hi, System.scan_of_none hs, Option.some.injEq] at h
    subst h
    refine ⟨⟨owner, ho.keep (fun _ => rfl) (by simp [hi]) (by simp [hi])⟩, ?_⟩
    refine ho.valid inv.valid (fun _ _ _ _ => rfl) ⟨by simp, by simp, by simp, fun _ => .inl fun p => ?_⟩
    exact System.findUnused_eq_none hs
  case some p =>
    simp only [proceed, hi, System.scan_snd hs, Option.some.injEq] at h
    subst h
    have hu := System.findUnused_eq_some hs
    have hw : σ.system.Within p (σ.system.scan π KernelPageTable).fst := System.within_scan hs
    refine inv.of_owned ho hw ?apart (ho.reserve hw hu ?state ?reserves ?frees rfl rfl) rfl rfl ?valid
    case valid => exact ⟨by simp, by simp, by simp, by simp⟩
    case state => rw [System.scan_state hs]; simp
    all_goals simp [hi, (ho.slots p).unused.mp hu]

theorem proceed_invariant (inv : σ.Invariant) (h : proceed π KernelPageTable σ i = some σ') : σ'.Invariant := by
  have ⟨owner, ho⟩ := inv.owned
  have hv := inv.valid i
  cases hp : (σ.cpu i).pc
  case idle     => simp [proceed, hp] at h
  case scanning => exact scan_invariant inv hp h
  case returning q =>
    cases q <;> simp only [proceed, hp, Option.some.injEq] at h <;> subst h
    case none =>
      refine ⟨⟨owner, ho.keep (fun _ => rfl) (by simp [hp]) (by simp [hp])⟩, ?_⟩
      exact ho.valid inv.valid (fun _ _ _ _ => rfl) (by constructor <;> simp)
    case some q =>
      refine ⟨⟨_, ho.return (i := i) (p := q) (by simp [hp]) (by simp [hp]) rfl rfl⟩, ?_⟩
      exact ho.valid inv.valid (fun _ _ _ _ => rfl) (by constructor <;> simp)
  all_goals
    simp only [proceed, hp, Option.some.injEq] at h
    subst h
  case allocating p =>
    have hr := hv.reserved p (by simp [hp])
    refine inv.keep (by simp [hp]) System.within_setKernelStack (fun _ => System.setKernelStack_state) rfl
      (by simp [hp]) ?_
    constructor <;> simp [hr]
  case checking p =>
    have hr := hv.reserved p (by simp [hp])
    have hs := hv.checking p hp
    refine inv.keep (p := p) (by simp [hp]) (fun _ _ => rfl) (fun _ => rfl) ?_ ?_ ?_
    case refine_3 =>
      split
      case isTrue h0 => constructor <;> simp [hr, hs, h0]
      case isFalse   => constructor <;> simp [hr]
    all_goals
      simp only [hp]
      split <;> rfl
  case pointing p =>
    have hr := hv.reserved p (by simp [hp])
    refine inv.keep (p := p) (by simp [hp]) (fun _ _ => rfl) (fun _ => rfl) rfl (by simp [hp]) ?_
    constructor <;> simp [hr]
  case framing p stackPointer =>
    have hr := hv.reserved p (by simp [hp])
    refine inv.keep (by simp [hp]) System.within_setTrapFrame (fun _ => System.setTrapFrame_state) rfl
      (by simp [hp]) ?_
    constructor <;> simp [hr]
  case tasking p stackPointer =>
    have hr := hv.reserved p (by simp [hp])
    refine inv.keep (by simp [hp]) System.within_setKernelTask (fun _ => System.setKernelTask_state) rfl
      (by simp [hp]) ?_
    constructor <;> simp [hr]
  case abandoning p =>
    have hi : (σ.cpu i).pc.reserves = some p := by simp [hp]
    refine inv.of_owned ho System.within_abandon (ho.apart hi)
      (ho.abandon System.within_abandon System.abandon_state hi (by simp [hp]) rfl rfl) rfl rfl ?_
    exact ⟨by simp, by simp, by simp, fun _ => .inr (hv.abandoning p hp)⟩
  case freeing p =>
    have hi : (σ.cpu i).pc.frees = some p := by simp [hp]
    refine inv.of_owned ho System.within_freeProcess (by simp [((ho.slots p).frees i).mp hi])
      (ho.free System.within_freeProcess System.freeProcess_state hi (by simp [hp]) rfl rfl) rfl rfl ?_
    constructor <;> simp

theorem step_invariant (inv : σ.Invariant) (h : step π KernelPageTable σ a = some σ') : σ'.Invariant := by
  have ⟨owner, ho⟩ := inv.owned
  cases a
  case allocateProcess i =>
    simp only [step, Option.ite_none_right_eq_some, Option.some.injEq] at h
    have ⟨hi, h⟩ := h
    subst h
    refine ⟨⟨owner, ho.keep (fun _ => rfl) (by simp [hi]) (by simp [hi])⟩, ?_⟩
    exact ho.valid inv.valid (fun _ _ _ _ => rfl) (by constructor <;> simp)
  case freeProcess i p =>
    simp only [step, Option.ite_none_right_eq_some, Option.some.injEq] at h
    have ⟨⟨hi, hp⟩, h⟩ := h
    subst h
    refine ⟨⟨_, ho.freeProcess hp (by simp [hi]) (by simp [hi]) rfl rfl⟩, ?_⟩
    exact ho.valid inv.valid (fun _ _ _ _ => rfl) (by constructor <;> simp)
  case mark p state =>
    simp only [step, Option.ite_none_right_eq_some, Option.some.injEq] at h
    have ⟨⟨hp, hs⟩, h⟩ := h
    subst h
    refine ⟨⟨owner, ho.mark System.within_modify hp (by simpa using hs)⟩, fun j => ?_⟩
    have hv := inv.valid j
    refine ⟨hv.reserved, fun q hq => ?_, hv.abandoning, hv.nullptr⟩
    have hj := ((ho.slots q).reserves j).mp (congrArg Pc.reserves hq)
    have hn : q ≠ p := by
      rintro rfl
      rw [(ho.slots q).owned.mp hp] at hj
      cases hj
    rw [System.modify_of_ne hn]
    exact hv.checking q hq
  case proceed i => exact proceed_invariant inv h

-- A processor that is not disturbed by the others executes `allocateProcess`.
theorem proceed_alone (h : (σ.cpu i).pc = .scanning) : ∃ n,
    (Execution.run (step π KernelPageTable) σ (List.replicate n (.proceed i))).map
      (fun σ' => (σ'.system, (σ'.cpu i).pc)) =
    some ((σ.system.allocateProcess π KernelPageTable).fst,
      .returning (σ.system.allocateProcess π KernelPageTable).snd) := by
  cases hs : σ.system.findUnused
  case none =>
    refine ⟨1, ?_⟩
    simp [Execution.run, step, proceed, setCPU, h, System.allocateProcess, System.scan_of_none hs]
  case some p =>
    by_cases h0 : (allocatePage π (σ.system.scan π KernelPageTable).fst.memory).snd = 0#64
    case pos =>
      refine ⟨4, ?_⟩
      simp [List.replicate, Execution.run, step, proceed, goto, setCPU, h, System.allocateProcess,
        System.scan_snd hs, h0]
    case neg =>
      refine ⟨6, ?_⟩
      simp [List.replicate, Execution.run, step, proceed, goto, setCPU, h, System.allocateProcess,
        System.scan_snd hs, h0]

theorem proceed_local (inv : σ.Invariant) (h : proceed π KernelPageTable σ i = some σ') (q : Slot)
    (hq : σ'.system.table q ≠ σ.system.table q) :
    (σ'.cpu i).reserved = some q ∨ (σ.cpu i).pc = .freeing q := by
  have hr p := (inv.valid i).reserved p
  cases hp : (σ.cpu i).pc
  case idle => simp [proceed, hp] at h
  case scanning =>
    cases hs : σ.system.findUnused
    case none =>
      simp only [proceed, hp, System.scan_of_none hs, Option.some.injEq] at h
      exact absurd (h ▸ rfl) hq
    case some p =>
      simp only [proceed, hp, System.scan_snd hs, Option.some.injEq] at h
      subst h
      exact .inl (by simp [setCPU, (System.within_scan hs).eq_of_ne hq])
  case returning r =>
    cases r <;> simp only [proceed, hp, Option.some.injEq] at h <;> exact absurd (h ▸ rfl) hq
  all_goals
    simp only [proceed, hp, Option.some.injEq] at h
    subst h
    simp only [goto, setCPU, update_self]
  case checking     => exact absurd rfl hq
  case pointing     => exact absurd rfl hq
  case allocating p => exact .inl <| hr q (by simp [hp, System.within_setKernelStack.eq_of_ne hq])
  case abandoning p => exact .inl <| hr q (by simp [hp, System.within_abandon.eq_of_ne hq])
  case framing p _  => exact .inl <| hr q (by simp [hp, System.within_setTrapFrame.eq_of_ne hq])
  case tasking p _  => exact .inl <| hr q (by simp [hp, System.within_setKernelTask.eq_of_ne hq])
  case freeing p    => exact .inr <| by rw [System.within_freeProcess.eq_of_ne hq]

theorem step_local (inv : σ.Invariant) (h : step π KernelPageTable σ a = some σ') : σ.Local σ' a := by
  cases a
  case allocateProcess i =>
    simp only [step, Option.ite_none_right_eq_some, Option.some.injEq] at h
    exact h.right ▸ rfl
  case freeProcess i p =>
    simp only [step, Option.ite_none_right_eq_some, Option.some.injEq] at h
    exact h.right ▸ rfl
  case mark      => trivial
  case proceed i => exact proceed_local inv h

omit [DecidableEq ι] in
theorem Invariant.exclusive (inv : σ.Invariant) : σ.Exclusive where
  returned := have ⟨_, ho⟩ := inv.owned; ho.nodup.right
  nullptr  := fun i => (inv.valid i).nullptr

-- In every run, each slot has at most one owner, and nobody else changes it.
theorem exclusive_local {memory : VirtualMemoryManagement.State} {as : List (Action ι)}
    (e : Execution (step π KernelPageTable) Execution.Free (start memory) as σ) :
    σ.Exclusive ∧ ∀ a σ', step π KernelPageTable σ a = some σ' → σ.Local σ' a :=
  have inv := e.invariant start_invariant fun inv _ => step_invariant inv
  ⟨inv.exclusive, fun _ _ => step_local inv⟩

-- A platform that runs out of pages: the sixth allocation fails.
def fivePages : Platform :=
  ⟨0, fun k => if k < 5 then 0x1000 * BitVec.ofNat 64 (k + 1) else 0⟩

-- The processors `i` and `j` allocate a slot each. Then `j` does not get a kernel stack for another one, and `i` is about
-- to free its slot.
def twoSlots (i j : ι) : List (Action ι) :=
  [.allocateProcess i, .allocateProcess j, .proceed i, .proceed j, .proceed j, .proceed i, .proceed i, .proceed j,
    .proceed i, .proceed j, .proceed i, .proceed j, .proceed i, .proceed j, .proceed i, .proceed j, .mark 0 .running,
    .allocateProcess j, .proceed j, .proceed j, .proceed j, .freeProcess i 0, .proceed j]

theorem exclusive_local_twoCPUs : ∃ σ σ' : Machine (Fin 2),
    Execution (step fivePages 0x100000) Execution.Free (start ⟨fun _ _ => .zero, 0⟩) (twoSlots 0 1) σ ∧
    σ.returned = [1, 0] ∧ (σ.cpu 1).pc = .returning none ∧ σ.Exclusive ∧
    step fivePages 0x100000 σ (.proceed 0) = some σ' ∧ σ'.returned = [1] ∧
    σ'.system.table 1 = σ.system.table 1 := by
  have hr : ∃ σ ∈ Execution.run (step fivePages 0x100000) (start ⟨fun _ _ => .zero, 0⟩) (twoSlots (0 : Fin 2) 1),
      σ.returned = [1, 0] ∧ (σ.cpu 1).pc = .returning none ∧ (σ.cpu 0).pc = .freeing 0 ∧
      ∃ σ' ∈ step fivePages 0x100000 σ (.proceed 0), σ'.returned = [1] ∧ (σ'.cpu 0).reserved = none := by
    decide +kernel
  obtain ⟨σ, hσ, hn, hp, hf, σ', hσ', hn', hr⟩ := hr
  have e := Execution.of_run hσ
  have ⟨he, hl⟩ := exclusive_local e
  refine ⟨σ, σ', e, hn, hp, he, hσ', hn', ?_⟩
  by_contra hne
  obtain h | h := hl _ _ hσ' 1 hne
  case inl => rw [hr] at h; contradiction
  case inr => rw [hf] at h; contradiction

end Machine
end ProcessManagement.Allocation
