import Xesual.Heap.Calls
import Xesual.Heap.Theorems.Free
import Xesual.Heap.Theorems.Requests
import Xesual.Library.Search

namespace Alloc

open Linked

-- The loops as searches along the list.
section Loops

variable {s : State} {actualSize base c p prev x : BitVec 64} {fuel fuel' k : Nat}

def fits (s : State) (actualSize chunk : BitVec 64) : Option (BitVec 64) :=
  if chunk = 0 then some 0 else if s.numBytes chunk ≥ actualSize then some chunk else none

def position (base : BitVec 64) : BitVec 64 × BitVec 64 → Option (BitVec 64 × BitVec 64)
  | (prev, next) => if next = 0 ∨ next > base then some (prev, next) else none

def advance (s : State) : BitVec 64 × BitVec 64 → BitVec 64 × BitVec 64
  | (_, next) => (next, s.next next)

theorem findChunk_eq_search : findChunk s actualSize fuel p = search (fits s actualSize) s.next fuel p := by
  induction fuel generalizing p
  case zero => rfl
  case succ ih =>
    rw [findChunk, search, fits, ih]
    split
    case isTrue  => rfl
    case isFalse => split <;> rfl

theorem findPosition_eq_search :
    findPosition s base fuel prev p = search (position base) (advance s) fuel (prev, p) := by
  induction fuel generalizing prev p
  case zero => rfl
  case succ ih =>
    rw [findPosition, search, position, ih]
    by_cases hp : p = 0
    case pos => rw [if_pos hp, if_pos (.inl hp)]
    case neg =>
      rw [if_neg hp]
      by_cases hb : p > base
      case pos => rw [if_pos hb, if_pos (.inr hb)]
      case neg => rw [if_neg hb, if_neg (not_or.mpr ⟨hp, hb⟩), advance]

theorem iterate_advance : ((advance s)^[k] (prev, p)).snd = s.next^[k] p := by
  induction k generalizing prev p
  case zero    => rfl
  case succ ih => exact ih

theorem findChunk_listed (h : findChunk s actualSize fuel p = some c) :
    c = 0 ∨ Reachable s.next 0 p c ∧ actualSize ≤ s.numBytes c := by
  induction fuel generalizing p
  case zero => simp [findChunk] at h
  case succ ih =>
    unfold findChunk at h
    split at h
    case isTrue => exact .inl (Option.some.inj h).symm
    case isFalse hp =>
      split at h
      case isTrue hn =>
        cases h
        exact .inr ⟨.head hp, hn⟩
      case isFalse => exact (ih h).imp_right fun h => ⟨h.left.cons hp, h.right⟩

-- The loop of `allocate` arrives at any chunk that is on the list, unless it finds another one before.
theorem exists_findChunk (h : Reachable s.next 0 p c) (hc : actualSize ≤ s.numBytes c) :
    ∃ fuel x, findChunk s actualSize fuel p = some x ∧ x ≠ 0 := by
  have ⟨k, hk, hp⟩ := h.exists_iterate
  have hf : fits s actualSize (s.next^[k] p) = some c := by
    rw [fits, if_neg (hp k (Nat.le_refl k)), hk, if_pos hc]
  have hs : ∃ fuel, (search (fits s actualSize) s.next fuel p).isSome :=
    Search.exists_isSome_iff.mpr ⟨k, by rw [hf]; rfl⟩
  have ⟨fuel, hs⟩ := hs
  have ⟨x, hx⟩ := Option.isSome_iff_exists.mp hs
  refine ⟨fuel, x, findChunk_eq_search.trans hx, fun h0 => ?_⟩
  -- The null pointer is not found, as it would have to stand in front of the chunk.
  have ⟨i, _, hn, hi⟩ := Search.eq_some_iff.mp hx
  have hik : i ≤ k := by
    refine Nat.not_lt.mp fun hlt => ?_
    exact absurd (hf.symm.trans <| hn k hlt) (by simp)
  rw [fits, if_neg (hp i hik)] at hi
  split at hi
  case isTrue  => exact hp i hik <| (Option.some.inj hi).trans h0
  case isFalse => cases hi

-- The loop of `free` ends if and only if it gets to a place at which it stops.
theorem exists_findPosition_iff : (∃ fuel, (findPosition s base fuel prev p).isSome) ↔
    ∃ k, s.next^[k] p = 0 ∨ s.next^[k] p > base := by
  simp only [findPosition_eq_search, Search.exists_isSome_iff]
  refine exists_congr fun k => ?_
  have hk : ((advance s)^[k] (prev, p)).snd = s.next^[k] p := iterate_advance
  rw [← hk, position]
  split <;> simp_all

end Loops

namespace State

variable {s s' : State} {mem size : BitVec 64} {fuel : Nat} {call : Call} {calls : List Call}

-- The outcomes of a call in a state in which the lock is free.
theorem execute_allocate_iff (hl : s.Unlocked) : execute fuel s (.allocate size) = some s' ↔
    ∃ c, findChunk s (size + 8) fuel s.freeList = some c ∧
      s' = if c = 0 then s.locked else (s.locked.take c (size + 8)).release := by
  cases fuel
  case zero => simp [execute, allocate, acquire, Alloc.acquire, findChunk]
  case succ =>
    rw [execute, allocate_of_unlocked hl, Option.map_map, Option.map_eq_some_iff]
    refine exists_congr fun c => and_congr_right fun _ => ?_
    rw [Function.comp_apply, eq_comm]
    split <;> rfl

theorem execute_free_iff (hl : s.Unlocked) : execute fuel s (.free mem) = some s' ↔ 0 < fuel ∧
    if s.freeList = 0 then s' = ((s.locked.cleared mem).setFreeList (mem - 8)).release
    else ∃ r, findPosition (s.locked.cleared mem) (mem - 8) fuel 0 s.freeList = some r ∧
      s' = ((s.locked.cleared mem).link (mem - 8) (s.blockSize mem) r.fst r.snd).release := by
  cases fuel
  case zero => simp [execute, free, acquire, Alloc.acquire]
  case succ =>
    rw [execute, free_of_unlocked hl]
    split
    case isTrue  => simp [eq_comm]
    case isFalse =>
      rw [Option.map_eq_some_iff]
      simp [eq_comm]

theorem execute_deterministic {fuel' : Nat} {s'' : State} (hl : s.Unlocked) (h : execute fuel s call = some s')
    (h' : execute fuel' s call = some s'') : s' = s'' := by
  cases call
  case allocate size =>
    have ⟨c, hc, hs⟩ := execute_allocate_iff hl |>.mp h
    have ⟨c', hc', hs'⟩ := execute_allocate_iff hl |>.mp h'
    rw [findChunk_eq_search] at hc hc'
    rw [hs, hs', Search.deterministic hc hc']
  case free mem =>
    have ⟨_, h⟩ := execute_free_iff hl |>.mp h
    have ⟨_, h'⟩ := execute_free_iff hl |>.mp h'
    split at h
    case isTrue hf =>
      rw [if_pos hf] at h'
      exact h.trans h'.symm
    case isFalse hf =>
      rw [if_neg hf] at h'
      have ⟨r, hr, hs⟩ := h
      have ⟨r', hr', hs'⟩ := h'
      rw [findPosition_eq_search] at hr hr'
      rw [hs, hs', Search.deterministic hr hr']

-- A call of `allocate` gives the lock back if and only if it finds a chunk.
theorem allocate_unlocks_iff (hl : s.Unlocked) :
    (∃ fuel s', execute fuel s (.allocate size) = some s' ∧ s'.Unlocked) ↔ s.Supports (.allocate size) := by
  constructor
  case mp =>
    intro ⟨fuel, s', h, hu⟩
    have ⟨c, hc, hs⟩ := execute_allocate_iff hl |>.mp h
    split at hs
    case isTrue => exact absurd (hs ▸ hu) not_unlocked_locked
    case isFalse h0 => exact ⟨c, (findChunk_listed hc).resolve_left h0⟩
  case mpr =>
    intro ⟨c, hc, hn⟩
    have ⟨fuel, x, hx, h0⟩ := exists_findChunk hc hn
    refine ⟨fuel, _, execute_allocate_iff hl |>.mpr ⟨x, hx, rfl⟩, ?_⟩
    rw [if_neg h0]
    exact unlocked_release

-- A call of `free` gives the lock back if and only if its loop ends.
theorem free_unlocks_iff (hl : s.Unlocked) :
    (∃ fuel s', execute fuel s (.free mem) = some s' ∧ s'.Unlocked) ↔ s.Supports (.free mem) := by
  have hloop : (∃ fuel, (findPosition (s.cleared mem).locked (mem - 8) fuel 0 s.freeList).isSome) ↔
      ∃ k, (s.cleared mem).next^[k] s.freeList = 0 ∨ (s.cleared mem).next^[k] s.freeList > mem - 8 := by
    rw [exists_findPosition_iff, locked_next]
  constructor
  case mp =>
    intro ⟨fuel, s', h, _⟩
    have ⟨_, h⟩ := execute_free_iff hl |>.mp h
    split at h
    case isTrue hf => exact ⟨0, .inl hf⟩
    case isFalse =>
      have ⟨r, hr, _⟩ := h
      exact hloop.mp ⟨fuel, by rw [← locked_cleared, hr]; rfl⟩
  case mpr =>
    intro h
    by_cases hf : s.freeList = 0
    case pos => exact ⟨1, _, execute_free_iff hl |>.mpr ⟨Nat.one_pos, by rw [if_pos hf]⟩, unlocked_release⟩
    case neg =>
      have ⟨fuel, hr⟩ := hloop.mpr h
      have ⟨r, hr⟩ := Option.isSome_iff_exists.mp hr
      have hpos : 0 < fuel := by
        cases fuel
        case zero => cases hr
        case succ => exact Nat.succ_pos _
      have hs : execute fuel s (.free mem) =
          some ((s.locked.cleared mem).link (mem - 8) (s.blockSize mem) r.fst r.snd).release :=
        execute_free_iff hl |>.mpr ⟨hpos, by rw [if_neg hf]; exact ⟨r, hr, rfl⟩⟩
      exact ⟨fuel, _, hs, unlocked_release⟩

theorem unlocks_iff (hl : s.Unlocked) :
    (∃ fuel s', execute fuel s call = some s' ∧ s'.Unlocked) ↔ s.Supports call := by
  cases call
  case allocate => exact allocate_unlocks_iff hl
  case free     => exact free_unlocks_iff hl

-- All calls of a sequence give the lock back if and only if each one of them finds what it relies on.
theorem returns_iff_supportsAll (hl : s.Unlocked) : s.Returns calls ↔ s.SupportsAll calls := by
  induction calls generalizing s
  case nil => exact .rfl
  case cons call calls ih =>
    constructor
    case mp =>
      intro ⟨fuel, s', h, hu, hr⟩
      refine ⟨unlocks_iff hl |>.mp ⟨fuel, s', h, hu⟩, fun fuel' s'' h' => ?_⟩
      cases execute_deterministic hl h h'
      exact ih hu |>.mp hr
    case mpr =>
      intro ⟨hs, hall⟩
      have ⟨fuel, s', h, hu⟩ := unlocks_iff hl |>.mpr hs
      exact ⟨fuel, s', h, hu, ih hu |>.mpr <| hall fuel s' h⟩

-- A block is taken from the end of a chunk, given back, and taken again.
theorem single_returns : (single 64 128).Returns [.allocate 16, .free 176, .allocate 16] := by
  have h : ∃ s₁ ∈ execute 4 (single 64 128) (.allocate 16), s₁.Unlocked ∧
      (s₁.cleared 176).next^[1] s₁.freeList = 0 ∧
      ∃ s₂ ∈ execute 4 s₁ (.free 176), s₂.freeList ≠ 0 ∧ 16 + sizeofUnfreeChunk ≤ s₂.numBytes s₂.freeList := by
    decide +kernel
  have ⟨s₁, h₁, hu, hk, s₂, h₂, h0, hn⟩ := h
  refine returns_iff_supportsAll single_unlocked |>.mpr ⟨⟨64, .head (by decide), ?_⟩, fun _ _ h => ?_⟩
  case refine_1 =>
    rw [single_numBytes]
    decide
  case refine_2 =>
    cases execute_deterministic single_unlocked h h₁
    refine ⟨⟨1, .inl hk⟩, fun _ _ h => ?_⟩
    cases execute_deterministic hu h h₂
    exact ⟨⟨s₂.freeList, .head h0, hn⟩, fun _ _ _ => trivial⟩

-- The second call waits for the lock, which the first one has not released.
theorem single_not_returns : (single 64 64).Unlocked ∧ ¬(single 64 64).Returns [.allocate 64, .allocate 16] := by
  refine ⟨single_unlocked, fun ⟨fuel, s', h, hu, _⟩ => ?_⟩
  have fl : (single 64 64).FreeList 0 [64] := single_freeList (by decide) (by decide)
  have ⟨c, hc, hn⟩ := allocate_unlocks_iff single_unlocked |>.mp ⟨fuel, s', h, hu⟩
  rw [List.mem_singleton.mp (fl.mem_iff.mpr hc), single_numBytes] at hn
  exact absurd hn (by decide)

end State
end Alloc
