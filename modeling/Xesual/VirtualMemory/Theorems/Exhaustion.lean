import Xesual.VirtualMemory.Exhaustion
import Xesual.VirtualMemory.Theorems.Map

namespace VirtualMemoryManagement

variable {π : Platform} {s s' : State} {root t x : PageTableRef} {v w : BitVec 64} {q : List (BitVec 9)}
  {r : List (BitVec 9)} {i j : BitVec 9} {e : PageTableEntry}

section NextLevel

theorem nextLevel_present (h : (s.tables t i).isPresent) : nextLevel π s t i = (s, π.pe2v (s.tables t i)) := by
  simp [nextLevel, h]

-- If the allocation fails, `map` continues with the entry as it is.
theorem nextLevel_failed (h : (s.tables t i).isPresent = false) (h0 : π.page s.allocated = 0) :
    nextLevel π s t i = ({ s with allocated := s.allocated + 1 }, π.pe2v (s.tables t i)) := by
  simp [nextLevel, allocatePageTableForTableEntry, allocatePageForTableEntry, allocatePage, h, h0]

-- The entry refers to the page that has been allocated.
theorem pe2v_refer {p : BitVec 64} (ha : 4096 ∣ p.toNat) (hl : p.toNat < 2 ^ 31) :
    π.pe2v (e.refer p) = π.toVirtual p ∧ π.tableAddress (e.refer p) = π.toVirtual p := by
  have h : Agree π .zero p := agree_of_lt ha hl rfl
  exact ⟨(pe2v_congr rfl).trans h.pe2v, (tableAddress_congr rfl).trans h.tableAddress⟩

section

variable (h : (s.tables t i).isPresent = false) (h0 : π.page s.allocated ≠ 0)
  (ha : 4096 ∣ (π.toPhysical (π.page s.allocated)).toNat) (hl : (π.toPhysical (π.page s.allocated)).toNat < 2 ^ 31)

include h h0 ha hl

theorem nextLevel_obtained_fst : (nextLevel π s t i).fst = {
    tables    := Trie.attach s.tables t i ((s.tables t i).refer (π.toPhysical (π.page s.allocated)))
      (π.page s.allocated) (fun _ => .zero)
    allocated := s.allocated + 1 } := by
  have ht := (pe2v_refer (π := π) (e := s.tables t i) ha hl).right
  rw [toVirtual_toPhysical] at ht
  simp only [nextLevel, allocatePageTableForTableEntry, allocatePageForTableEntry, allocatePage, h, h0,
    Bool.not_false, ↓reduceIte, State.write, State.clear, Trie.write_self, ht, Trie.attach]

theorem nextLevel_obtained_snd (hn : t ≠ π.page s.allocated) : (nextLevel π s t i).snd = π.page s.allocated := by
  have ht := (pe2v_refer (π := π) (e := s.tables t i) ha hl).left
  rw [toVirtual_toPhysical] at ht
  have hs : (nextLevel π s t i).snd = π.pe2v ((nextLevel π s t i).fst.tables t i) := rfl
  rw [hs, nextLevel_obtained_fst h h0 ha hl]
  simp only [Trie.attach_of_ne hn, Trie.write_self, ht]

end
end NextLevel

section Missing

theorem missing_append (h : Trie.descend π.referent s.tables root q = some t) :
    missing π s root (q ++ r) = missing π s t r := by
  induction q generalizing root
  case nil => cases h; rfl
  case cons i q ih =>
    have ⟨u, hu, h⟩ := Option.bind_eq_some_iff.mp h
    rw [List.cons_append, missing, hu]
    exact ih h

theorem referent_of_absent (h : e.isPresent = false) : π.referent e = none := by
  simp [Platform.referent, h]

theorem missing_of_absent (h : (s.tables t i).isPresent = false) : missing π s t (i :: r) = r.length + 1 := by
  rw [missing, referent_of_absent h]

theorem missing_eq_zero (h : Trie.descend π.referent s.tables root q = some t) : missing π s root q = 0 := by
  have h := missing_append (r := []) h
  rwa [List.append_nil] at h

end Missing

section Confined

theorem Obtained.mono {s'' : State} (h : Obtained π s s' x) (hs : s'.allocated ≤ s''.allocated) :
    Obtained π s s'' x :=
  have ⟨k, hk, hk', hx, h0⟩ := h
  ⟨k, hk, Nat.lt_of_lt_of_le hk' hs, hx, h0⟩

theorem Confined.refl : Confined π s s root :=
  fun _ _ h => absurd rfl h

theorem Confined.write (h : Confined π s s' root) (ht : Reachable π s root t ∨ Obtained π s s' t) :
    Confined π s (s'.write t i e) root := by
  intro x j hj
  by_cases hx : x = t
  case pos => exact hx ▸ ht
  case neg =>
    refine h x j fun hs => hj ?_
    rw [← hs]
    exact Trie.write_of_ne (.inl hx)

end Confined

section Outcome

-- After a failed allocation `map` is at the first page of physical memory, or it has already written to it.
def Spoilt (π : Platform) (s : State) (t : PageTableRef) : Prop :=
  (∃ j, (s.tables (π.toVirtual 0) j).isPresent) ∨ t = π.toVirtual 0 ∧
    ∀ j, (s.tables (π.toVirtual 0) j).isPresent = false ∧ (s.tables (π.toVirtual 0) j).physicalAddress = 0

-- A table without an address in its entry.
theorem pe2v_eq_null (h : e.physicalAddress = 0) : π.pe2v e = π.toVirtual 0 := by
  rw [Platform.pe2v, h]
  rfl

theorem Spoilt.nextLevel (h : Spoilt π s t) (ha : π.page s.allocated ≠ 0 →
      4096 ∣ (π.toPhysical (π.page s.allocated)).toNat ∧ (π.toPhysical (π.page s.allocated)).toNat < 2 ^ 31 ∧
        π.page s.allocated ≠ π.toVirtual 0) :
    Spoilt π (nextLevel π s t i).fst (nextLevel π s t i).snd := by
  cases hp : (s.tables t i).isPresent
  case true =>
    rw [nextLevel_present hp]
    refine .inl <| h.elim id fun h => ?_
    rw [h.left, (h.right i).left] at hp
    cases hp
  case false =>
    by_cases h0 : π.page s.allocated = 0
    case pos =>
      rw [nextLevel_failed hp h0]
      refine h.imp id fun h => ⟨pe2v_eq_null ?_, h.right⟩
      exact h.left ▸ (h.right i).right
    case neg =>
      obtain ⟨ha, hl, hn⟩ := ha h0
      rw [nextLevel_obtained_fst hp h0 ha hl]
      left
      simp only [Trie.attach_of_ne hn.symm]
      by_cases hz : t = π.toVirtual 0
      case pos => exact ⟨i, by rw [← hz, Trie.write_self]; rfl⟩
      case neg =>
        obtain ⟨j, hj⟩ := h.resolve_right fun h => hz h.left
        exact ⟨j, by rwa [Trie.write_of_ne (.inl (Ne.symm hz))]⟩

theorem Spoilt.write (h : Spoilt π s t) :
    ∃ j, ((s.write t i ((s.tables t i).mapTo w)).tables (π.toVirtual 0) j).isPresent := by
  by_cases ht : t = π.toVirtual 0
  case pos =>
    refine ⟨i, ?_⟩
    simp only [← ht, State.write, Trie.write_self]
    rfl
  case neg =>
    obtain ⟨j, hj⟩ := h.resolve_right fun h => ht h.left
    refine ⟨j, ?_⟩
    simpa only [State.write, Trie.write_of_ne (.inl (Ne.symm ht))]

-- Where `map` is after it has followed the path `q` from the root, if the path `r` is still ahead: at a table that has
-- been there before, at an empty table that has just been allocated, or somewhere else after a failed allocation.
inductive Outcome (π : Platform) (s : State) (root : PageTableRef) (v : BitVec 64) (q r : List (BitVec 9)) (s' : State)
    (t : PageTableRef) : Prop
  | existing (same : s' = s) (path : Trie.descend π.referent s.tables root q = some t)
  | obtained (empty : ∀ j, s'.tables t j = .zero) (page : Obtained π s s' t) (confined : Confined π s s' root)
    (count : s'.allocated + r.length = s.allocated + missing π s root (path v))
    (success : ∀ k, s.allocated ≤ k → k < s'.allocated → π.page k ≠ 0)
  | failed (failure : ¬Sufficient π s root v) (spoilt : Blank π s root v → Spoilt π s' t)
    (count : s'.allocated + r.length ≤ s.allocated + missing π s root (path v))

-- All tables of the first page of physical memory are as they have been before the first failure.
theorem Confined.null (h : Confined π s s' root)
    (ha : s'.allocated ≤ s.allocated + missing π s root (path v)) (hb : Blank π s root v) :
    s'.tables (π.toVirtual 0) j = s.tables (π.toVirtual 0) j := by
  by_contra hj
  apply (h _ _ hj).elim hb.unused
  intro ⟨k, hk, hk', hx, h0⟩
  exact hb.page ⟨hk, by omega⟩ (hx ▸ h0) hx

-- The step from a table where the next one is missing.
section

variable (ha : Addressable π s root v) (hr : Requested π s root v s'.allocated)

include ha hr

theorem Addressable.agree (h0 : π.page s'.allocated ≠ 0) :
    4096 ∣ (π.toPhysical (π.page s'.allocated)).toNat ∧ (π.toPhysical (π.page s'.allocated)).toNat < 2 ^ 31 :=
  ⟨ha.aligned hr h0, ha.low hr h0⟩

-- A table where `map` may be is not the page that is allocated next.
theorem Addressable.ne_page (h0 : π.page s'.allocated ≠ 0) (ht : Reachable π s root t ∨ Obtained π s s' t) :
    t ≠ π.page s'.allocated := by
  rintro rfl
  apply ht.elim (ha.unused hr h0)
  intro ⟨k, hk, hk', hx, _⟩
  exact ha.distinct ⟨hk, hk'.trans hr.right⟩ hr hk' h0 hx

end

theorem Outcome.nextLevel_missing (ha : Addressable π s root v) (hp : (s'.tables t i).isPresent = false)
    (hs : s.allocated ≤ s'.allocated)
    (count : s'.allocated + (r.length + 1) = s.allocated + missing π s root (path v))
    (hc : Confined π s s' root) (ht : Reachable π s root t ∨ Obtained π s s' t)
    (success : ∀ k, s.allocated ≤ k → k < s'.allocated → π.page k ≠ 0)
    (empty : Blank π s root v → (s'.tables t i).physicalAddress = 0) :
    Outcome π s root v (q ++ [i]) r (nextLevel π s' t i).fst (nextLevel π s' t i).snd := by
  have hr : Requested π s root v s'.allocated := ⟨hs, by omega⟩
  by_cases h0 : π.page s'.allocated = 0
  case pos =>
    rw [nextLevel_failed hp h0]
    apply Outcome.failed
    case count => simp only; omega
    case failure =>
      intro h
      apply h (s'.allocated - s.allocated) (by omega)
      rwa [Nat.add_sub_cancel' hs]
    case spoilt =>
      intro hb
      refine .inr ⟨pe2v_eq_null (empty hb), fun j => ?_⟩
      simp only [hc.null (by omega) hb]
      exact hb.null j
  case neg =>
    have ⟨hd, hl⟩ := ha.agree hr h0
    rw [nextLevel_obtained_fst hp h0 hd hl, nextLevel_obtained_snd hp h0 hd hl (ha.ne_page hr h0 ht)]
    apply Outcome.obtained
    case empty => simp [Trie.attach_new]
    case page  => exact ⟨s'.allocated, hs, Nat.lt_succ_self _, rfl, h0⟩
    case confined =>
      intro x j hj
      by_cases hx : x = π.page s'.allocated
      case pos => exact .inr ⟨s'.allocated, hs, Nat.lt_succ_self _, hx.symm, hx ▸ h0⟩
      case neg =>
        simp only [Trie.attach_of_ne hx] at hj
        exact (hc.write (i := i) ht x j hj).imp id (·.mono (Nat.le_succ _))
    case count => simp only; omega
    case success =>
      intro k hk hk'
      cases Nat.lt_succ_iff_lt_or_eq.mp hk'
      case inl hk' => exact success k hk hk'
      case inr hk' => exact hk' ▸ h0

theorem length_path (hq : q ++ r = path v) : q.length + r.length = 3 := by
  rw [← List.length_append, hq]
  rfl

theorem Outcome.next (h : Outcome π s root v q (i :: r) s' t) (ha : Addressable π s root v)
    (hq : q ++ i :: r = path v) (hs : s.allocated ≤ s'.allocated) :
    Outcome π s root v (q ++ [i]) r (nextLevel π s' t i).fst (nextLevel π s' t i).snd := by
  have hi : q ++ [i] <+: path v := ⟨r, by rw [← hq]; simp⟩
  have hl : q.length + (r.length + 1) = 3 := length_path hq
  cases h
  case existing same path =>
    subst same
    cases hp : (s'.tables t i).isPresent
    case true =>
      rw [nextLevel_present hp]
      apply Outcome.existing rfl
      rw [Trie.descend_concat, path, Option.bind_some, Platform.referent, if_pos hp, ha.present hi path hp]
    case false =>
      apply Outcome.nextLevel_missing ha hp hs
      case count   => rw [← hq, missing_append path, missing_of_absent hp]
      case hc      => exact .refl
      case ht      => exact .inl ⟨q, by omega, path⟩
      case success => intro k hk hk'; omega
      case empty   => exact fun hb => hb.absent hi path hp
  case obtained empty page confined count success =>
    apply Outcome.nextLevel_missing ha (by rw [empty]; rfl) hs count confined (.inr page) success
    intro _
    rw [empty]
    rfl
  case failed failure spoilt count =>
    have hr : Requested π s root v s'.allocated := ⟨hs, by rw [List.length_cons] at count; omega⟩
    refine .failed failure (fun hb => (spoilt hb).nextLevel fun h0 => ?_) ?_
    case refine_1 =>
      have ⟨hd, hl⟩ := ha.agree hr h0
      exact ⟨hd, hl, hb.page hr h0⟩
    case refine_2 =>
      have ⟨_, hu⟩ := allocated_nextLevel (π := π) (s := s') (t := t) (i := i)
      rw [List.length_cons] at count
      omega

-- The rest of the way.
theorem Outcome.follow {n : State × PageTableRef} (h : Outcome π s root v q r n.fst n.snd)
    (ha : Addressable π s root v) (hq : q ++ r = path v) (hs : s.allocated ≤ n.fst.allocated) :
    Outcome π s root v (path v) [] (r.foldl (fun n i => nextLevel π n.fst n.snd i) n).fst
      (r.foldl (fun n i => nextLevel π n.fst n.snd i) n).snd := by
  induction r generalizing q n
  case nil =>
    rw [List.append_nil] at hq
    exact hq ▸ h
  case cons i r ih =>
    have ⟨hl, _⟩ := allocated_nextLevel (π := π) (s := n.fst) (t := n.snd) (i := i)
    refine ih (h.next ha hq hs) ?_ (hs.trans hl)
    rw [← hq, List.append_assoc, List.singleton_append]

theorem level1Table_eq :
    level1Table π s root v = (path v).foldl (fun n i => nextLevel π n.fst n.snd i) (s, root) := rfl

theorem Outcome.of_level1Table (ha : Addressable π s root v) :
    Outcome π s root v (path v) [] (level1Table π s root v).fst (level1Table π s root v).snd := by
  have h : Outcome π s root v [] (path v) (s, root).fst (s, root).snd := .existing rfl rfl
  rw [level1Table_eq]
  exact h.follow ha (List.nil_append _) (Nat.le_refl _)

end Outcome

section Map

theorem map_eq : map π s root v w = (level1Table π s root v).fst.write (level1Table π s root v).snd (level1Index v)
    (((level1Table π s root v).fst.tables (level1Table π s root v).snd (level1Index v)).mapTo w) := rfl

theorem not_failed (h : Sufficient π s root v) (ha : Addressable π s root v) :
    ¬Failed π s (map π s root v w) := by
  intro ⟨k, hk, hk', h0⟩
  cases Outcome.of_level1Table ha
  case existing same _ =>
    rw [map_eq, same] at hk'
    exact Nat.not_lt.mpr hk hk'
  case obtained success => exact success k hk hk' h0
  case failed failure _ _ => exact failure h

theorem confined_map (h : Sufficient π s root v) (ha : Addressable π s root v) :
    Confined π s (map π s root v w) root := by
  rw [map_eq]
  cases Outcome.of_level1Table ha
  case existing same path =>
    rw [same]
    exact Confined.refl.write <| .inl ⟨_, Nat.le_of_eq rfl, path⟩
  case obtained page confined _ _ => exact confined.write <| .inr page
  case failed failure _ _ => exact absurd h failure

theorem sufficient_of_confined (hc : Confined π s (map π s root v w) root) (ha : Addressable π s root v)
    (hb : Blank π s root v) : Sufficient π s root v := by
  cases Outcome.of_level1Table ha
  case existing path =>
    intro k hk
    rw [missing_eq_zero path] at hk
    exact nomatch hk
  case obtained count success =>
    intro k hk
    exact success _ (Nat.le_add_right ..) (by simp only [List.length_nil] at count; omega)
  case failed _ spoilt count =>
    have ⟨j, hj⟩ := (spoilt hb).write (i := level1Index v) (w := w)
    rw [← map_eq, hc.null count hb, (hb.null j).left] at hj
    cases hj

-- As long as there are pages left for the missing tables, `map` does not touch any other memory. Otherwise, it follows
-- an entry without an address, and ends up in the first page of physical memory.
theorem survives_iff (ha : Addressable π s root v) :
    (Sufficient π s root v → Survives π s root v w) ∧
    (Blank π s root v → (Survives π s root v w ↔ Sufficient π s root v)) :=
  have hs h := ⟨confined_map h ha, fun hf => absurd hf <| not_failed h ha⟩
  ⟨hs, fun hb => ⟨fun h => sufficient_of_confined h.confined ha hb, hs⟩⟩

-- A platform with up to three free pages, and a root table in memory that is otherwise empty.
def lastPage (k : Nat) : BitVec 64 :=
  0xffff800000002000 + .ofNat 64 (0x1000 * k)

def lastPages (n : Nat) : Platform where
  HigherHalfDirectMapOffset := 0xffff800000000000
  page k                    := if k < n then lastPage k else 0

def emptyMemory : State where
  tables _ _ := .zero
  allocated  := 0

theorem page_lastPages {n k : Nat} (h : (lastPages n).page k ≠ 0) : k < n ∧ (lastPages n).page k = lastPage k := by
  by_cases hk : k < n
  case pos => exact ⟨hk, if_pos hk⟩
  case neg => exact absurd (if_neg hk) h

theorem lastPage_spec : ∀ k < 3, 4096 ∣ (lastPage k - 0xffff800000000000).toNat ∧
    (lastPage k - 0xffff800000000000).toNat < 2 ^ 31 ∧ lastPage k ≠ 0xffff800000001000 ∧
    lastPage k ≠ 0 + 0xffff800000000000 := by decide

theorem lastPage_inj : ∀ k < 3, ∀ l < 3, k < l → lastPage k ≠ lastPage l := by decide

theorem reachable_emptyMemory (h : Reachable π emptyMemory root t) : t = root := by
  have ⟨q, _, hq⟩ := h
  cases q
  case nil  => exact (Option.some.inj hq).symm
  case cons => exact nomatch hq

theorem missing_emptyMemory : missing π emptyMemory root (path v) = 3 := missing_of_absent rfl

theorem requested_emptyMemory {k : Nat} (h : Requested π emptyMemory root v k) : k < 3 := by
  have h := h.right
  rw [missing_emptyMemory] at h
  simpa [emptyMemory] using h

theorem addressable_lastPages {n : Nat} : Addressable (lastPages n) emptyMemory 0xffff800000001000 v where
  present _ _ h          := nomatch h
  aligned hk h           := (page_lastPages h).right ▸ (lastPage_spec _ (requested_emptyMemory hk)).left
  low hk h               := (page_lastPages h).right ▸ (lastPage_spec _ (requested_emptyMemory hk)).right.left
  unused hk h hr         := by
    rw [(page_lastPages h).right] at hr
    exact (lastPage_spec _ (requested_emptyMemory hk)).right.right.left (reachable_emptyMemory hr)
  distinct hk hl hkl h   := by
    have ⟨hn, hl'⟩ := page_lastPages h
    rw [hl', show (lastPages n).page _ = lastPage _ from if_pos (hkl.trans hn)]
    exact lastPage_inj _ (requested_emptyMemory hk) _ (requested_emptyMemory hl) hkl

theorem blank_lastPages {n : Nat} : Blank (lastPages n) emptyMemory 0xffff800000001000 v where
  absent _ _ _ := rfl
  null _       := ⟨rfl, rfl⟩
  unused h     := by
    have hne : (0 : BitVec 64) + 0xffff800000000000 ≠ 0xffff800000001000 := by decide
    exact hne (reachable_emptyMemory h)
  page hk h    := (page_lastPages h).right ▸ (lastPage_spec _ (requested_emptyMemory hk)).right.right.right

theorem not_sufficient_lastPages : ¬Sufficient (lastPages 1) emptyMemory 0xffff800000001000 v :=
  fun h => h 1 (missing_emptyMemory ▸ by decide) rfl

theorem sufficient_lastPages : Sufficient (lastPages 3) emptyMemory 0xffff800000001000 v := by
  intro k hk
  rw [missing_emptyMemory] at hk
  interval_cases k <;> decide

-- Three pages are enough for the missing tables, and a single one is not.
theorem survives_iff_lastPages : Survives (lastPages 3) emptyMemory 0xffff800000001000 0x400000 0x5000 ∧
    ¬Survives (lastPages 1) emptyMemory 0xffff800000001000 0x400000 0x5000 :=
  ⟨(survives_iff addressable_lastPages).left sufficient_lastPages,
    fun h => not_sufficient_lastPages <| ((survives_iff addressable_lastPages).right blank_lastPages).mp h⟩

theorem not_survives : ¬∀ (π : Platform) (s : State) (root : PageTableRef) (v w : BitVec 64), Survives π s root v w :=
  fun h => not_sufficient_lastPages <|
    sufficient_of_confined (h (lastPages 1) emptyMemory 0xffff800000001000 0x400000 0x5000).confined
      addressable_lastPages blank_lastPages

end Map
end VirtualMemoryManagement
