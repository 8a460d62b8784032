import Mathlib

-- Depth-first traversals without a record of the nodes that have been visited. A node `b` has the items
-- `items b`, and an item may lead to another node, which is then traversed before the next item.

namespace Traversal

open Relation

variable {B I X : Type*} {items : B → List I} {next : I → Option B}

-- The concatenation of the results for the elements of a list.
def visitAll (visit : X → Option (List I)) : List X → Option (List I)
  | []      => some []
  | i :: is => (visit i).bind fun xs => (visitAll visit is).map (xs ++ ·)

-- An item, followed by the items of the node to which it leads.
def visit (next : I → Option B) (traverse : B → Option (List I)) (i : I) : Option (List I) :=
  match next i with
  | none   => some [i]
  | some b => (traverse b).map (i :: ·)

-- The traversal is cut off at the depth `fuel`.
def traverse (items : B → List I) (next : I → Option B) : Nat → B → Option (List I)
  | 0,        _ => none
  | fuel + 1, b => visitAll (visit next (traverse items next fuel)) (items b)

-- An item of the node `b` leads to the node `b'`.
def Edge (items : B → List I) (next : I → Option B) (b b' : B) : Prop :=
  ∃ i ∈ items b, next i = some b'

section VisitAll

variable {f : X → Option (List I)} {is : List X} {xs : List I} {x : I}

theorem visitAll_singleton {i : X} : visitAll f [i] = f i := by
  cases h : f i <;> simp [visitAll, h]

theorem visitAll_append {js : List X} :
    visitAll f (is ++ js) = (visitAll f is).bind fun xs => (visitAll f js).map (xs ++ ·) := by
  induction is
  case nil => cases h : visitAll f js <;> simp [visitAll, h]
  case cons i is ih =>
    simp only [List.cons_append, visitAll, ih]
    cases f i <;> cases visitAll f is <;> cases visitAll f js <;> simp

theorem visitAll_flatMap {Y : Type*} {l : List Y} {g : Y → List X} :
    visitAll f (l.flatMap g) = visitAll (fun y => visitAll f (g y)) l := by
  induction l
  case nil  => rfl
  case cons ih => rw [List.flatMap_cons, visitAll_append, ih, visitAll]

theorem visitAll_isSome_iff : (visitAll f is).isSome ↔ ∀ i ∈ is, (f i).isSome := by
  induction is
  case nil => simp [visitAll]
  case cons i is ih =>
    simp only [visitAll, List.mem_cons, forall_eq_or_imp, ← ih]
    cases f i <;> simp

theorem mem_visitAll_iff (h : visitAll f is = some xs) : x ∈ xs ↔ ∃ i ∈ is, ∃ ys, f i = some ys ∧ x ∈ ys := by
  induction is generalizing xs
  case nil =>
    cases h
    simp
  case cons i is ih =>
    have ⟨ys, hi, h⟩ := Option.bind_eq_some_iff.mp h
    have ⟨zs, his, h⟩ := Option.map_eq_some_iff.mp h
    subst h
    simp [ih his, hi]

-- The results for different items have to be disjoint.
theorem nodup_visitAll (h : visitAll f is = some xs) (hd : is.Nodup)
    (hn : ∀ i ∈ is, ∀ ys, f i = some ys → ys.Nodup)
    (hdis : ∀ i ∈ is, ∀ j ∈ is, i ≠ j → ∀ ys zs, f i = some ys → f j = some zs → ys.Disjoint zs) :
    xs.Nodup := by
  induction is generalizing xs
  case nil =>
    cases h
    exact .nil
  case cons i is ih =>
    have ⟨ys, hi, h⟩ := Option.bind_eq_some_iff.mp h
    have ⟨zs, his, h⟩ := Option.map_eq_some_iff.mp h
    subst h
    have ⟨hni, hd⟩ := List.nodup_cons.mp hd
    refine List.Nodup.append (hn i (by simp) ys hi) (ih his hd ?_ ?_) ?_
    case refine_1 => exact fun j hj => hn j (by simp [hj])
    case refine_2 => exact fun j hj k hk => hdis j (by simp [hj]) k (by simp [hk])
    case refine_3 =>
      intro x hx hx'
      have ⟨j, hj, ws, hf, hw⟩ := (mem_visitAll_iff his).mp hx'
      have hne : i ≠ j := fun he => hni (he ▸ hj)
      exact hdis i (by simp) j (by simp [hj]) hne ys ws hi hf hx hw

theorem disjoint_of_nodup_visitAll {i j : X} {ys zs : List I} (h : visitAll f is = some xs) (hn : xs.Nodup)
    (hi : i ∈ is) (hj : j ∈ is) (hne : i ≠ j) (hfi : f i = some ys) (hfj : f j = some zs) : ys.Disjoint zs := by
  induction is generalizing xs
  case nil => cases hi
  case cons k is ih =>
    have ⟨ws, hk, h⟩ := Option.bind_eq_some_iff.mp h
    have ⟨us, his, h⟩ := Option.map_eq_some_iff.mp h
    subst h
    have ⟨_, hn, hd⟩ := List.nodup_append'.mp hn
    -- The results for the other elements are in `us`.
    have hus {l : X} {vs : List I} (hl : l ∈ is) (hf : f l = some vs) {x : I} (hx : x ∈ vs) : x ∈ us :=
      (mem_visitAll_iff his).mpr ⟨l, hl, vs, hf, hx⟩
    cases List.mem_cons.mp hi <;> cases List.mem_cons.mp hj
    case inl.inl hi hj => exact absurd (hi.trans hj.symm) hne
    case inl.inr hi hj =>
      cases Option.some.inj <| (hi ▸ hfi).symm.trans hk
      exact fun x hx hx' => hd hx (hus hj hfj hx')
    case inr.inl hi hj =>
      cases Option.some.inj <| (hj ▸ hfj).symm.trans hk
      exact fun x hx hx' => hd hx' (hus hi hfi hx)
    case inr.inr hi hj => exact ih his hn hi hj

end VisitAll

section Termination

variable {b b' : B} {n m : Nat}

theorem visit_isSome_iff {t : B → Option (List I)} {i : I} :
    (visit next t i).isSome ↔ ∀ b, next i = some b → (t b).isSome := by
  unfold visit
  split
  case h_1 h => simp [h]
  case h_2 h => simp [h]

theorem traverse_succ_isSome_iff : (traverse items next (n + 1) b).isSome ↔
    ∀ b', Edge items next b b' → (traverse items next n b').isSome := by
  simp only [traverse, visitAll_isSome_iff, visit_isSome_iff]
  exact ⟨fun h b' ⟨i, hi, hb⟩ => h i hi b' hb, fun h i hi b' hb => h b' ⟨i, hi, hb⟩⟩

theorem traverse_isSome_mono (h : (traverse items next n b).isSome) (hn : n ≤ m) :
    (traverse items next m b).isSome := by
  induction n generalizing b m
  case zero => contradiction
  case succ n ih =>
    cases m
    case zero => contradiction
    case succ m =>
      rw [traverse_succ_isSome_iff] at h ⊢
      exact fun b' e => ih (h b' e) (Nat.le_of_succ_le_succ hn)

-- There is a common bound for the depths of finitely many nodes.
theorem exists_fuel {bs : List B} (h : ∀ b ∈ bs, ∃ n, (traverse items next n b).isSome) :
    ∃ n, ∀ b ∈ bs, (traverse items next n b).isSome := by
  induction bs
  case nil => exact ⟨0, nofun⟩
  case cons b bs ih =>
    simp only [List.mem_cons, forall_eq_or_imp] at h ⊢
    have ⟨n, hn⟩ := h.left
    have ⟨m, hm⟩ := ih h.right
    refine ⟨max n m, ?_, fun c hc => ?_⟩
    case refine_1 => exact traverse_isSome_mono hn (Nat.le_max_left ..)
    case refine_2 => exact traverse_isSome_mono (hm c hc) (Nat.le_max_right ..)

-- The traversal terminates if and only if there are no infinite paths.
theorem traverse_terminates_iff :
    (∃ n, (traverse items next n b).isSome) ↔ Acc (fun b' b => Edge items next b b') b := by
  constructor
  case mp =>
    intro ⟨n, h⟩
    induction n generalizing b
    case zero => contradiction
    case succ n ih =>
      rw [traverse_succ_isSome_iff] at h
      exact .intro b fun b' e => ih (h b' e)
  case mpr =>
    intro h
    induction h
    case intro b _ ih =>
      have he {b' : B} : b' ∈ (items b).filterMap next ↔ Edge items next b b' := List.mem_filterMap
      have ⟨n, hn⟩ := exists_fuel fun b' hb' => ih b' (he.mp hb')
      exact ⟨n + 1, traverse_succ_isSome_iff.mpr fun b' e => hn b' (he.mpr e)⟩

-- If only finitely many nodes can be reached, then there is an infinite path if and only if there is a cycle.
theorem acc_iff_acyclic {r : B → B → Prop} (fin : { b' | ReflTransGen r b b' }.Finite) :
    Acc (fun b' b => r b b') b ↔ ∀ b', ReflTransGen r b b' → ¬TransGen r b' b' := by
  constructor
  case mp =>
    intro h b' hb' hc
    have h' : Acc (fun b' b => r b b') b' := by
      clear hc
      induction hb'
      case refl         => exact h
      case tail hr ih   => exact ih.inv hr
    have key (x : B) (hx : Acc (TransGen fun b' b => r b b') x) : ¬TransGen (fun b' b => r b b') x x := by
      induction hx
      case intro x _ ih => exact fun hc => ih x hc hc
    exact key b' h'.transGen (transGen_swap.mpr hc)
  case mpr =>
    intro h
    have : Finite { b' | ReflTransGen r b b' } := fin
    let R (x y : { b' | ReflTransGen r b b' }) : Prop := TransGen r y.val x.val
    have : IsTrans _ R := ⟨fun _ _ _ h h' => h'.trans h⟩
    have : Std.Irrefl R := ⟨fun x => h x.val x.property⟩
    have wf := Finite.wellFounded_of_trans_of_irrefl R
    have key (x : { b' | ReflTransGen r b b' }) : Acc (fun b' b => r b b') x.val := by
      induction x using wf.induction
      case h x ih => exact .intro _ fun y hy => ih ⟨y, x.property.tail hy⟩ (.single hy)
    exact key ⟨b, .refl⟩

end Termination

section Items

variable {b b' : B} {n : Nat} {xs ys : List I} {i j x : I}

theorem mem_visit_iff {t : B → Option (List I)} (h : visit next t i = some xs) :
    x ∈ xs ↔ x = i ∨ ∃ b ys, next i = some b ∧ t b = some ys ∧ x ∈ ys := by
  unfold visit at h
  split at h
  case h_1 hn =>
    cases h
    simp [hn]
  case h_2 b hn =>
    have ⟨ys, ht, h⟩ := Option.map_eq_some_iff.mp h
    subst h
    simp [hn, ht]

-- The traversal visits exactly the items of the nodes that can be reached.
theorem mem_traverse_iff (h : traverse items next n b = some xs) :
    x ∈ xs ↔ ∃ b', ReflTransGen (Edge items next) b b' ∧ x ∈ items b' := by
  induction n generalizing b xs
  case zero => contradiction
  case succ n ih =>
    rw [traverse] at h
    rw [mem_visitAll_iff h]
    constructor
    case mp =>
      intro ⟨i, hi, ys, hv, hx⟩
      cases (mem_visit_iff hv).mp hx
      case inl hx => exact ⟨b, .refl, hx ▸ hi⟩
      case inr hx =>
        have ⟨c, zs, hc, ht, hx⟩ := hx
        have ⟨b', hr, hx⟩ := (ih ht).mp hx
        exact ⟨b', .head ⟨i, hi, hc⟩ hr, hx⟩
    case mpr =>
      intro ⟨b', hr, hx⟩
      have hs : ∀ i ∈ items b, ∃ ys, visit next (traverse items next n) i = some ys :=
        fun i hi => Option.isSome_iff_exists.mp <| visitAll_isSome_iff.mp (Option.isSome_of_eq_some h) i hi
      cases ReflTransGen.cases_head hr
      case inl he =>
        subst he
        have ⟨ys, hv⟩ := hs x hx
        exact ⟨x, hx, ys, hv, (mem_visit_iff hv).mpr (.inl rfl)⟩
      case inr hr =>
        have ⟨c, ⟨i, hi, hc⟩, hr⟩ := hr
        have ⟨ys, hv⟩ := hs i hi
        have ⟨zs, ht⟩ := Option.isSome_iff_exists.mp <| visit_isSome_iff.mp (Option.isSome_of_eq_some hv) c hc
        exact ⟨i, hi, ys, hv, (mem_visit_iff hv).mpr <| .inr ⟨c, zs, hc, ht, (ih ht).mpr ⟨b', hr, hx⟩⟩⟩

-- The given nodes form a forest: every item belongs to one of them, and each of them has at most one item that
-- leads to it.
structure Forest (items : B → List I) (next : I → Option B) (nodes : Set B) : Prop where
  closed  : ∀ {b c}, b ∈ nodes → Edge items next b c → c ∈ nodes
  nodup   : ∀ b ∈ nodes, (items b).Nodup
  owner   : ∀ {i b b'}, b ∈ nodes → b' ∈ nodes → i ∈ items b → i ∈ items b' → b = b'
  parent  : ∀ {i j b b' c}, b ∈ nodes → b' ∈ nodes → i ∈ items b → j ∈ items b' →
    next i = some c → next j = some c → i = j
  acyclic : ∀ b ∈ nodes, ¬TransGen (Edge items next) b b

namespace Forest

variable {nodes : Set B} {c d : B} (f : Forest items next nodes)
include f

theorem reachable (hb : b ∈ nodes) (h : ReflTransGen (Edge items next) b c) : c ∈ nodes := by
  induction h
  case refl      => exact hb
  case tail e ih => exact f.closed ih e

theorem edge_unique (hb : b ∈ nodes) (hb' : b' ∈ nodes) (h : Edge items next b c) (h' : Edge items next b' c) :
    b = b' := by
  have ⟨i, hi, hc⟩ := h
  have ⟨j, hj, hc'⟩ := h'
  have he := f.parent hb hb' hi hj hc hc'
  exact f.owner hb hb' hi (he ▸ hj)

-- Of two nodes that lead to a common node, one leads to the other.
theorem total (hc : c ∈ nodes) (hd : d ∈ nodes) (h : ReflTransGen (Edge items next) c b)
    (h' : ReflTransGen (Edge items next) d b) :
    ReflTransGen (Edge items next) c d ∨ ReflTransGen (Edge items next) d c := by
  induction h
  case refl         => exact .inr h'
  case tail b' b hr e ih =>
    cases ReflTransGen.cases_tail h'
    case inl he =>
      subst he
      exact .inl (hr.tail e)
    case inr he =>
      have ⟨b'', hr', e'⟩ := he
      cases f.edge_unique (f.reachable hc hr) (f.reachable hd hr') e e'
      exact ih hr'

-- Two different children of a node do not lead to each other.
theorem not_reachable (hb : b ∈ nodes) (hc : Edge items next b c) (hd : Edge items next b d) (hne : c ≠ d) :
    ¬ReflTransGen (Edge items next) c d := by
  intro h
  cases ReflTransGen.cases_tail h
  case inl he => exact hne he.symm
  case inr he =>
    have ⟨e, hr, he⟩ := he
    cases f.edge_unique (f.reachable (f.closed hb hc) hr) hb he hd
    exact f.acyclic _ hb (.head' hc hr)

theorem not_mem_of_edge (hb : b ∈ nodes) (hi : i ∈ items b) (hc : Edge items next b c)
    (ht : traverse items next n c = some xs) : i ∉ xs := by
  intro hm
  have ⟨d, hr, hd⟩ := (mem_traverse_iff ht).mp hm
  cases f.owner hb (f.reachable (f.closed hb hc) hr) hi hd
  exact f.acyclic b hb (.head' hc hr)

theorem disjoint_of_edges (hb : b ∈ nodes) (hc : Edge items next b c) (hd : Edge items next b d) (hne : c ≠ d)
    (ht : traverse items next n c = some xs) (ht' : traverse items next n d = some ys) : xs.Disjoint ys := by
  intro x hx hx'
  have hcn := f.closed hb hc
  have hdn := f.closed hb hd
  have ⟨e, hr, he⟩ := (mem_traverse_iff ht).mp hx
  have ⟨e', hr', he'⟩ := (mem_traverse_iff ht').mp hx'
  cases f.owner (f.reachable hcn hr) (f.reachable hdn hr') he he'
  cases f.total hcn hdn hr hr'
  case inl h => exact f.not_reachable hb hc hd hne h
  case inr h => exact f.not_reachable hb hd hc hne.symm h

theorem disjoint_visit (hb : b ∈ nodes) (hi : i ∈ items b) (hj : j ∈ items b) (hne : i ≠ j)
    (h : visit next (traverse items next n) i = some xs) (h' : visit next (traverse items next n) j = some ys) :
    xs.Disjoint ys := by
  intro x hx hx'
  cases (mem_visit_iff h).mp hx <;> cases (mem_visit_iff h').mp hx'
  case inl.inl hx hx' => exact hne (hx.symm.trans hx')
  case inl.inr hx hx' =>
    have ⟨c, zs, hc, ht, hx'⟩ := hx'
    exact f.not_mem_of_edge hb hi ⟨j, hj, hc⟩ ht (hx ▸ hx')
  case inr.inl hx hx' =>
    have ⟨c, zs, hc, ht, hx⟩ := hx
    exact f.not_mem_of_edge hb hj ⟨i, hi, hc⟩ ht (hx' ▸ hx)
  case inr.inr hx hx' =>
    have ⟨c, zs, hc, ht, hx⟩ := hx
    have ⟨d, ws, hd, ht', hx'⟩ := hx'
    have hcd : c ≠ d := fun he => hne <| f.parent hb hb hi hj hc (he ▸ hd)
    exact f.disjoint_of_edges hb ⟨i, hi, hc⟩ ⟨j, hj, hd⟩ hcd ht ht' hx hx'

-- No item is visited twice.
theorem nodup_traverse (hb : b ∈ nodes) (h : traverse items next n b = some xs) : xs.Nodup := by
  induction n generalizing b xs
  case zero => contradiction
  case succ n ih =>
    refine nodup_visitAll h (f.nodup b hb) ?_ ?_
    case refine_1 =>
      intro i hi ys hv
      unfold visit at hv
      split at hv
      case h_1 =>
        cases hv
        exact List.nodup_singleton i
      case h_2 c hc =>
        have ⟨zs, ht, hv⟩ := Option.map_eq_some_iff.mp hv
        subst hv
        have e : Edge items next b c := ⟨i, hi, hc⟩
        exact List.nodup_cons.mpr ⟨f.not_mem_of_edge hb hi e ht, ih (f.closed hb e) ht⟩
    case refine_2 => exact fun i hi j hj hne ys zs h h' => f.disjoint_visit hb hi hj hne h h'

end Forest
end Items
end Traversal
