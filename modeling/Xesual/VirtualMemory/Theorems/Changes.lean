import Xesual.VirtualMemory.Theorems.Map

-- What a call of `map` leaves unchanged.

namespace VirtualMemoryManagement

variable {π : Platform} {s s' s'' : State} {root t : PageTableRef} {p q : List (BitVec 9)} {i j : BitVec 9}
variable {v w : BitVec 64} {e : PageTableEntry}

-- The table has been allocated on the way from `s` to `s'`.
def New (π : Platform) (s s' : State) (t : PageTableRef) : Prop :=
  ∃ k, s.allocated ≤ k ∧ k < s'.allocated ∧ π.page k = t

-- Only tables on the path of the address `v` are changed or added. The root table is changed at most by
-- adding an entry.
structure Changes (π : Platform) (root : PageTableRef) (v : BitVec 64) (s s' : State) : Prop where
  allocated : s.allocated ≤ s'.allocated
  table     : ∀ q, q.length ≤ 3 → s'.table π root q = s.table π root q ∨
    q ≠ [] ∧ q <+: path v ∧ ∃ t, s'.table π root q = some t ∧ New π s s' t
  tables    : ∀ t, s'.tables t = s.tables t ∨ (∃ q, q <+: path v ∧ s.table π root q = some t) ∨ New π s s' t
  root      : ∀ j, s'.tables root j = s.tables root j ∨
    j = level4Index v ∧ (s.tables root j).isPresent = false

namespace Changes

theorem refl : Changes π root v s s where
  allocated := le_rfl
  table     := fun _ _ => .inl rfl
  tables    := fun _ => .inl rfl
  root      := fun _ => .inl rfl

theorem trans (c₁ : Changes π root v s s') (c₂ : Changes π root v s' s'') : Changes π root v s s'' where
  allocated := c₁.allocated.trans c₂.allocated
  table     := by
    intro q hq
    obtain h₂ | ⟨hn, hp, t, ht, k, hk, hk', he⟩ := c₂.table q hq
    case inl =>
      obtain h₁ | ⟨hn, hp, t, ht, k, hk, hk', he⟩ := c₁.table q hq
      case inl => exact .inl (h₂.trans h₁)
      case inr => exact .inr ⟨hn, hp, t, h₂.trans ht, k, hk, hk'.trans_le c₂.allocated, he⟩
    case inr => exact .inr ⟨hn, hp, t, ht, k, c₁.allocated.trans hk, hk', he⟩
  tables    := by
    intro t
    obtain h₂ | ⟨q, hp, ht⟩ | ⟨k, hk, hk', he⟩ := c₂.tables t
    case inl =>
      obtain h₁ | h₁ | ⟨k, hk, hk', he⟩ := c₁.tables t
      case inl     => exact .inl (h₂.trans h₁)
      case inr.inl => exact .inr <| .inl h₁
      case inr.inr => exact .inr <| .inr ⟨k, hk, hk'.trans_le c₂.allocated, he⟩
    case inr.inl =>
      have hq : q.length ≤ 3 := hp.length_le
      obtain h₁ | ⟨_, _, t', ht', k, hk, hk', he⟩ := c₁.table q hq
      case inl => exact .inr <| .inl ⟨q, hp, h₁.symm.trans ht⟩
      case inr =>
        cases Option.some.inj <| ht.symm.trans ht'
        exact .inr <| .inr ⟨k, hk, hk'.trans_le c₂.allocated, he⟩
    case inr.inr => exact .inr <| .inr ⟨k, c₁.allocated.trans hk, hk', he⟩
  root      := by
    intro j
    obtain h₁ | h₁ := c₁.root j
    case inl => exact h₁ ▸ c₂.root j
    case inr => exact .inr h₁

end Changes

namespace Tree

-- One step of `map` to the next level.
theorem changes_nextLevel (tree : Tree π s root) (ht : s.table π root p = some t)
    (hp : p ++ [i] <+: path v) (h : π.Fresh (nextLevel π s t i).fst.allocated) :
    Changes π root v s (nextLevel π s t i).fst := by
  cases hv : (s.tables t i).isPresent <;>
    simp only [nextLevel, hv, Bool.not_true, Bool.not_false, Bool.false_eq_true, ↓reduceIte] at h ⊢
  case true  => exact .refl
  case false =>
    have hl : p.length < 3 := Nat.lt_of_succ_le <| by simpa [path] using hp.length_le
    rw [allocated_allocatePageTableForTableEntry] at h
    have ha := tree.attachable h ht hl hv
    have htables := tables_allocatePageTableForTableEntry h (tree.clean hl.le ht i)
    have hallocated := allocated_allocatePageTableForTableEntry (π := π) (s := s) (t := t) (i := i)
    generalize (allocatePageTableForTableEntry π s t i).fst = s' at htables hallocated
    have new : New π s s' (π.page s.allocated) := ⟨s.allocated, le_rfl, by omega, rfl⟩
    constructor
    case allocated => omega
    case table     =>
      intro q hq
      have hd : s'.table π root q = if q = p ++ [i] then some (π.page s.allocated) else s.table π root q := by
        rw [State.table, htables, ha.descend hq, State.table]
      split at hd
      case isTrue he => exact .inr ⟨by simp [he], he ▸ hp, _, hd, new⟩
      case isFalse   => exact .inl hd
    case tables    =>
      intro x
      by_cases hx : x = π.page s.allocated
      case pos => exact .inr <| .inr (hx ▸ new)
      case neg =>
        by_cases hxt : x = t
        case pos => exact .inr <| .inl ⟨p, (List.prefix_append ..).trans hp, hxt ▸ ht⟩
        case neg =>
          left
          funext j
          rw [htables, Trie.attach_of_ne hx, Trie.write_of_ne (.inl hxt)]
    case root      =>
      intro j
      have hx : root ≠ π.page s.allocated := fun he => tree.table_ne_page (q := []) h (by simp) (congrArg some he)
      rw [htables, Trie.attach_of_ne hx]
      by_cases hj : root = t ∧ j = i
      case pos =>
        obtain ⟨hrt, hji⟩ := hj
        subst hrt hji
        cases tree.unshared hl.le (Nat.zero_le _) ht (q := []) rfl
        exact .inr ⟨by simpa [path] using hp, hv⟩
      case neg => exact .inl <| Trie.write_of_ne (not_and_or.mp hj)

-- The entry of level 1.
theorem changes_write (tree : Tree π s root) (ht : s.table π root (path v) = some t) :
    Changes π root v s (s.write t i e) where
  allocated := le_rfl
  table     := fun _ hq => .inl <| tree.unshared.descend_write ht rfl hq
  tables    := by
    intro x
    by_cases hx : x = t
    case pos => exact .inr <| .inl ⟨path v, List.prefix_refl _, hx ▸ ht⟩
    case neg => exact .inl <| funext fun _ => Trie.write_of_ne (.inl hx)
  root      := by
    intro j
    have hr : root ≠ t := by
      intro hr
      subst hr
      have := tree.unshared (q := path v) (Nat.zero_le _) (by simp [path]) (p := []) rfl ht
      contradiction
    exact .inl <| Trie.write_of_ne (.inl hr)

theorem changes_map (tree : Tree π s root) (h : π.Fresh (map π s root v w).allocated) :
    Changes π root v s (map π s root v w) := by
  have h₀ : s.table π root [] = some root := rfl
  have h₃ : π.Fresh (level1Table π s root v).fst.allocated := h
  have h₂ := h₃.mono (n := (nextLevel π _ _ _).fst.allocated) allocated_le_nextLevel
  have h₁ := h₂.mono (n := (nextLevel π _ _ _).fst.allocated) allocated_le_nextLevel
  have c₁ := tree.changes_nextLevel (v := v) h₀ (by simp [path]) h₁
  obtain ⟨s₁, t₁⟩ := tree.follow h₀ (by decide) h₁
  have c₂ := s₁.tree.changes_nextLevel (v := v) t₁ (by simp [path]) h₂
  obtain ⟨s₂, t₂⟩ := s₁.tree.follow t₁ (by simp) h₂
  have c₃ := s₂.tree.changes_nextLevel (v := v) t₂ (by simp [path]) h₃
  obtain ⟨s₃, t₃⟩ := s₂.tree.follow t₂ (by simp) h₃
  exact c₁.trans <| c₂.trans <| c₃.trans (s₃.tree.changes_write t₃)

end Tree
end VirtualMemoryManagement
