import Xesual.Segments.Theorems.Selectors

-- The table after `Table::init`, and after the processor has used it.

namespace Segments

variable {table stackLocation v : BitVec 64} {m : Memory} {selector : BitVec 16} {i j : Nat}

section Words

-- Words at the given offsets do not overlap.
def Apart (i j : Nat) : Prop := i + 8 ≤ j ∨ j + 8 ≤ i

instance : Decidable (Apart i j) := inferInstanceAs <| Decidable (_ ∨ _)

theorem disjoint_region_of_apart (h : Apart i j) (hi : i + 8 ≤ 2 ^ 64) (hj : j + 8 ≤ 2 ^ 64) :
    Disjoint (Memory.region (table + .ofNat 64 i) 8) (Memory.region (table + .ofNat 64 j) 8) := by
  have hi' : (BitVec.ofNat 64 i).toNat = i := by rw [BitVec.toNat_ofNat]; omega
  have hj' : (BitVec.ofNat 64 j).toNat = j := by rw [BitVec.toNat_ofNat]; omega
  obtain h | h := h
  · exact Memory.disjoint_region_add (by omega) (by omega)
  · exact (Memory.disjoint_region_add (by omega) (by omega)).symm

theorem load_store_of_apart (h : Apart i j) (hi : i + 8 ≤ 2 ^ 64) (hj : j + 8 ≤ 2 ^ 64) :
    (m.store (table + .ofNat 64 i) v).load (table + .ofNat 64 j) = m.load (table + .ofNat 64 j) :=
  Memory.load_store_of_disjoint (disjoint_region_of_apart h hi hj)

-- Several words that are stored one after the other, given by their offsets and values.
def stores (table : BitVec 64) (writes : List (Nat × BitVec 64)) (m : Memory) : Memory :=
  writes.foldl (fun m write => m.store (table + .ofNat 64 write.fst) write.snd) m

variable {writes : List (Nat × BitVec 64)} {write : Nat × BitVec 64}

theorem load_stores_of_apart (hw : ∀ write ∈ writes, Apart write.fst j ∧ write.fst + 8 ≤ 2 ^ 64)
    (hj : j + 8 ≤ 2 ^ 64) : (stores table writes m).load (table + .ofNat 64 j) = m.load (table + .ofNat 64 j) := by
  induction writes generalizing m
  case nil => rfl
  case cons write writes ih =>
    obtain ⟨hw, hs⟩ := List.forall_mem_cons.mp hw
    exact (ih hs).trans (load_store_of_apart hw.left hw.right hj)

theorem load_stores (hp : (writes.map Prod.fst).Pairwise Apart) (hs : ∀ write ∈ writes, write.fst + 8 ≤ 2 ^ 64)
    (h : write ∈ writes) : (stores table writes m).load (table + .ofNat 64 write.fst) = write.snd := by
  induction writes generalizing m
  case nil => simp at h
  case cons first writes ih =>
    obtain ⟨hfirst, hp⟩ := List.pairwise_cons.mp hp
    obtain ⟨hl, hws⟩ := List.forall_mem_cons.mp hs
    obtain rfl | h := List.mem_cons.mp h
    · have ha : ∀ w ∈ writes, Apart w.fst write.fst ∧ w.fst + 8 ≤ 2 ^ 64 := by
        intro w hw
        have h : Apart write.fst w.fst := hfirst w.fst (List.mem_map_of_mem hw)
        exact ⟨h.symm, hws w hw⟩
      exact (load_stores_of_apart ha hl).trans Memory.load_store
    · exact ih hp hws h

end Words

namespace Table

-- What is stored by `Table::init`.
def writes (table stackLocation : BitVec 64) : List (Nat × BitVec 64) :=
  segments.map (fun f => (offsetof f, (entry f).bits)) ++
    [(56, (tssEntry table).bits), (64, (tssEntry table).highBits), (76, stackLocation)]

theorem load_init (h : (i, v) ∈ writes table stackLocation) :
    (init table stackLocation m).load (table + .ofNat 64 i) = v := by
  have hoffsets : (writes table stackLocation).map Prod.fst = [0, 8, 16, 24, 32, 40, 48, 56, 64, 76] := rfl
  have hpairwise : [0, 8, 16, 24, 32, 40, 48, 56, 64, 76].Pairwise Apart := by decide
  have hsize : ∀ i ∈ [0, 8, 16, 24, 32, 40, 48, 56, 64, 76], i + 8 ≤ 2 ^ 64 := by decide
  have hs : ∀ write ∈ writes table stackLocation, write.fst + 8 ≤ 2 ^ 64 :=
    fun write hw => hsize _ (hoffsets ▸ List.mem_map_of_mem hw)
  have hl : (stores table (writes table stackLocation) m).load (table + .ofNat 64 (i, v).fst) = (i, v).snd :=
    load_stores (hoffsets ▸ hpairwise) hs h
  exact hl

theorem intact_init : Intact table (init table stackLocation m) where
  segment f hf  := by
    have hw : (offsetof f, (entry f).bits) ∈ writes table stackLocation :=
      List.mem_append_left _ (List.mem_map_of_mem hf)
    rw [load_init hw]
  system i hi   := by
    obtain rfl | rfl := List.mem_pair.mp hi
    · have hw : (56, (tssEntry table).bits) ∈ writes table stackLocation := List.mem_append_right _ (by simp)
      have hbit : (tssEntry table).bits.getLsbD 44 = (0x89 : BitVec 8).getLsbD 4 := getLsbD_bits
      rw [load_init hw]
      exact hbit.trans (by decide)
    · have hw : (64, (tssEntry table).highBits) ∈ writes table stackLocation := List.mem_append_right _ (by simp)
      have hbit : (tssEntry table).highBits.getLsbD 44 = (0 : BitVec 32).getLsbD 12 := BitVec.getLsbD_append
      rw [load_init hw]
      exact hbit.trans (by decide)

-- The offsets of the words that are part of descriptors.
def words : List Nat := [0, 8, 16, 24, 32, 40, 48, 56, 64]

theorem mem_words_iff : i ∈ words ↔ i / 8 * 8 = i ∧ i ≤ 64 := by
  simp only [words, List.mem_cons, List.not_mem_nil, or_false]
  omega

theorem apart_of_ne (hi : i ∈ words) (hj : j ∈ words) (h : i ≠ j) : Apart i j := by
  rw [mem_words_iff] at hi hj
  rw [Apart]
  omega

-- Nothing but the descriptors matters.
theorem intact_congr {m' : Memory} (h : Intact table m) (heq : Set.EqOn m' m (Memory.region table 72)) :
    Intact table m' := by
  have hload {i : Nat} (hi : i ∈ words) : m'.load (table + .ofNat 64 i) = m.load (table + .ofNat 64 i) := by
    refine Memory.load_congr (heq.mono (Memory.region_subset ?_))
    have ha : table + .ofNat 64 i - table = .ofNat 64 i := by bv_omega
    have hi := mem_words_iff.mp hi
    rw [ha, BitVec.toNat_ofNat]
    omega
  constructor
  case segment =>
    have hsegment : ∀ f ∈ segments, offsetof f ∈ words := by decide
    intro f hf
    rw [hload (hsegment f hf), h.segment f hf]
  case system =>
    have hsystem : ∀ j ∈ [56, 64], j ∈ words := by decide
    intro j hj
    rw [hload (hsystem j hj), h.system j hj]

-- The word at offset `i` is changed, but not what the processor needs to know about it.
theorem intact_store (h : Intact table m) (hi : i ∈ words)
    (hs : i < 56 → Descriptor.ofBits v = Descriptor.ofBits (m.load (table + .ofNat 64 i)))
    (hs' : 56 ≤ i → (Descriptor.ofBits v).isUserSegment = false) : Intact table (m.store (table + .ofNat 64 i) v) := by
  have hsize {j : Nat} (hj : j ∈ words) : j + 8 ≤ 2 ^ 64 := by
    rw [mem_words_iff] at hj
    omega
  have hload {j : Nat} (hj : j ∈ words) (hij : i ≠ j) :
      (m.store (table + .ofNat 64 i) v).load (table + .ofNat 64 j) = m.load (table + .ofNat 64 j) :=
    load_store_of_apart (apart_of_ne hi hj hij) (hsize hi) (hsize hj)
  constructor
  case segment =>
    have hsegment : ∀ f ∈ segments, offsetof f ∈ words ∧ offsetof f < 56 := by decide
    intro f hf
    by_cases hij : i = offsetof f
    case pos => rw [← hij, Memory.load_store, hs (hij ▸ (hsegment f hf).right), hij, h.segment f hf]
    case neg => rw [hload (hsegment f hf).left hij, h.segment f hf]
  case system =>
    have hsystem : ∀ j ∈ [56, 64], j ∈ words ∧ 56 ≤ j := by decide
    intro j hj
    by_cases hij : i = j
    case pos => rw [← hij, Memory.load_store, hs' (hij ▸ (hsystem j hj).right)]
    case neg => rw [hload (hsystem j hj).left hij, h.system j hj]

-- The processor sets a bit in the descriptors that it uses.
theorem intact_use (h : Intact table m) (hs : selector.toNat < 56) :
    Intact table ((tableRegister table).use selector m) := by
  rw [TableRegister.use, address_eq]
  split
  case isTrue => exact h
  case isFalse =>
    refine intact_store h (mem_words_iff.mpr (by omega)) (fun _ => ofBits_or_accessedBit) fun hi => ?_
    omega

theorem load_use (hs : selector.toNat < 56) (hi : i ∈ words) (h : 56 ≤ i) :
    ((tableRegister table).use selector m).load (table + .ofNat 64 i) = m.load (table + .ofNat 64 i) := by
  rw [TableRegister.use, address_eq]
  split
  case isTrue => rfl
  case isFalse =>
    have hs' : selector.toNat / 8 * 8 ∈ words := mem_words_iff.mpr (by omega)
    have hi' := mem_words_iff.mp hi
    exact load_store_of_apart (apart_of_ne hs' hi (by omega)) (by omega) (by omega)

section Install

open Memory (Changes region)

theorem changes_store (hi : i ∈ words) : Changes m (m.store (table + .ofNat 64 i) v) (region table 72) := by
  refine Changes.store.mono (Memory.region_subset ?_)
  rw [mem_words_iff] at hi
  have h : table + .ofNat 64 i - table = .ofNat 64 i := by bv_omega
  rw [h, BitVec.toNat_ofNat]
  omega

theorem changes_use (hs : selector.toNat < 56) : Changes m ((tableRegister table).use selector m) (region table 72) := by
  rw [TableRegister.use, address_eq]
  split
  case isTrue  => exact .refl
  case isFalse => exact changes_store (mem_words_iff.mpr (by omega))

-- Only the descriptors are changed, but not the task state segment.
theorem eqOn_of_changes {m' : Memory} (h : Changes m m' (region table 72)) : Set.EqOn m' m (region (table + 72) 104) := by
  refine h.eqOn (Memory.disjoint_region ?_ ?_).symm <;> bv_omega

theorem isAvailable_tssEntry :
    (tssEntry table).bits.extractLsb' 40 5 = 0x9 ∧ (tssEntry table).bits.getLsbD 47 := by
  have h (i : Nat) (hi : i < 8) : (tssEntry table).bits.getLsbD (40 + i) = (0x89 : BitVec 8).getLsbD i := by
    rw [getLsbD_bits]
    interval_cases i <;> rfl
  constructor
  case left =>
    apply BitVec.eq_of_getLsbD_eq
    intro i hi
    rw [BitVec.getLsbD_extractLsb', h i (by omega)]
    interval_cases i <;> rfl
  case right => exact (h 7 (by decide)).trans (by decide)

theorem lastByte_tssEntry : (Descriptor.ofBits (tssEntry table).bits).lastByte = 104 := by
  have hg : (Descriptor.ofBits (tssEntry table).bits).granularity = (0 : BitVec 4).getLsbD 3 := getLsbD_bits
  have hl : (Descriptor.ofBits (tssEntry table).bits).limit = (0 : BitVec 4) ++ (104 : BitVec 16) := limit_ofBits
  rw [Descriptor.lastByte, hg, hl]
  rfl

theorem ltr_eq (hl : m.load (table + 56) = (tssEntry table).bits)
    (hh : m.load (table + 64) = (tssEntry table).highBits) : ltr (tableRegister table) 0x3b m =
      some (⟨table + 72, 104⟩, m.store (table + 56) ((tssEntry table).bits ||| busyBit)) := by
  have ha : (tableRegister table).address 0x3b = table + 56 := address_eq
  have ha' : table + 56 + 8 = table + 64 := by bv_omega
  have hb : systemBase (tssEntry table).bits (tssEntry table).highBits = table + 72 := systemBase_systemEntry
  obtain ⟨ht, hp⟩ : (tssEntry table).bits.extractLsb' 40 5 = 0x9 ∧ _ := isAvailable_tssEntry
  simp only [ltr, ha, ha', hl, hh, hb, ht, hp, lastByte_tssEntry]
  rfl

-- After `Table::install`, the table is in use, and nothing behind it has been changed.
theorem exists_install : ∃ m', install table (init table stackLocation m) =
      some (⟨m', 8, 0x10, []⟩, ⟨table + 72, 104⟩) ∧
    Intact table m' ∧ Changes (init table stackLocation m) m' (region table 72) := by
  have h₀ : Intact table (init table stackLocation m) := intact_init
  have hl₀ : (init table stackLocation m).load (table + .ofNat 64 56) = (tssEntry table).bits :=
    load_init (List.mem_append_right _ (by simp))
  have hh₀ : (init table stackLocation m).load (table + .ofNat 64 64) = (tssEntry table).highBits :=
    load_init (List.mem_append_right _ (by simp))
  generalize init table stackLocation m = m₀ at *
  have hc : Changes m₀ ((tableRegister table).use 0x10 ((tableRegister table).use 8 m₀)) (region table 72) :=
    (changes_use (by decide)).trans (changes_use (by decide))
  have h₂ : Intact table ((tableRegister table).use 0x10 ((tableRegister table).use 8 m₀)) :=
    intact_use (intact_use h₀ (by decide)) (by decide)
  -- The entry for the task state segment is still the same.
  have hload {i : Nat} (hi : i ∈ words) (h : 56 ≤ i) :
      ((tableRegister table).use 0x10 ((tableRegister table).use 8 m₀)).load (table + .ofNat 64 i) =
        m₀.load (table + .ofNat 64 i) := by
    rw [load_use (by decide) hi h, load_use (by decide) hi h]
  have hl := (hload (i := 56) (by decide) (by decide)).trans hl₀
  have hh := (hload (i := 64) (by decide) (by decide)).trans hh₀
  have hb : (Descriptor.ofBits ((tssEntry table).bits ||| busyBit)).isUserSegment = false := by
    have hbit : (tssEntry table).bits.getLsbD 44 = (0x89 : BitVec 8).getLsbD 4 := getLsbD_bits
    have hor : ((tssEntry table).bits ||| busyBit).getLsbD 44 = _ := BitVec.getLsbD_or ..
    rw [hbit] at hor
    exact hor.trans (by decide)
  obtain ⟨ha, hs⟩ : acceptsCode (tableRegister table) m₀ 0 8 ∧ acceptsStack (tableRegister table) m₀ 8 0x10 :=
    (accepts_iff h₀).mpr (.inl ⟨rfl, rfl, .inr rfl⟩)
  refine ⟨_, ?_, intact_store h₂ (i := 56) (by decide) (fun h => absurd h (by decide)) fun _ => hb,
    hc.trans (changes_store (i := 56) (by decide))⟩
  have hcs : BitVec.ofNat 16 (offsetof .kernelCode) = 8 := by decide
  have hss : BitVec.ofNat 16 (offsetof .kernelData) = 0x10 := by decide
  simp only [install, hcs, hss, ha, hs, Bool.and_self, ↓reduceIte]
  rw [ltr_eq hl hh]
  rfl

end Install

end Table
end Segments
