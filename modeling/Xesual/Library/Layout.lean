import Mathlib

-- The layout of structs in memory, according to the usual rules of C: the members follow one another in the order of
-- their declaration, and each one is placed at the first multiple of its alignment that is free.

-- The size and the alignment of a type in bytes.
structure Layout where
  size  : Nat
  align : Nat
  deriving DecidableEq

namespace Layout

def integer (n : Nat) : Layout := ⟨n, n⟩

def array (t : Layout) (n : Nat) : Layout := ⟨n * t.size, t.align⟩

-- The first multiple of `a` that is not below `n`.
def roundUp (a n : Nat) : Nat := (n + a - 1) / a * a

-- `__attribute__((packed))` and `__attribute__((aligned(a)))`.
def packed (ts : List Layout) : Layout := ⟨(ts.map size).sum, 1⟩

def aligned (t : Layout) (a : Nat) : Layout := ⟨roundUp (max a t.align) t.size, max a t.align⟩

section Struct

variable {φ : Type} [DecidableEq φ] {type : φ → Layout} {f g : φ} {fs : List φ} {n : Nat}

-- The members `fs` are placed from the address `n` on. What is the address behind the last one of them, and what is
-- the one of the member `f`?
def finish (type : φ → Layout) : List φ → Nat → Nat
  | [],      n => n
  | g :: fs, n => finish type fs (roundUp (type g).align n + (type g).size)

def place (type : φ → Layout) (f : φ) : List φ → Nat → Nat
  | [],      n => n
  | g :: fs, n => if g = f then roundUp (type g).align n else place type f fs (roundUp (type g).align n + (type g).size)

def struct (type : φ → Layout) (fs : List φ) : Layout :=
  let a := fs.foldr (fun f a => max (type f).align a) 1
  ⟨roundUp a (finish type fs 0), a⟩

def offsetof (type : φ → Layout) (fs : List φ) (f : φ) : Nat :=
  place type f fs 0

theorem le_roundUp {a : Nat} (h : 0 < a) : n ≤ roundUp a n := by
  have hd := Nat.div_add_mod (n + a - 1) a
  have hm := Nat.mod_lt (n + a - 1) h
  rw [roundUp, Nat.mul_comm]
  omega

variable (ha : ∀ f, 0 < (type f).align)

include ha

omit [DecidableEq φ] in
theorem le_finish : n ≤ finish type fs n := by
  induction fs generalizing n
  case nil => exact Nat.le_refl n
  case cons g fs ih =>
    calc n
      _ ≤ roundUp (type g).align n                                := le_roundUp (ha g)
      _ ≤ roundUp (type g).align n + (type g).size                := Nat.le_add_right ..
      _ ≤ finish type fs (roundUp (type g).align n + (type g).size) := ih

theorem le_place : n ≤ place type f fs n := by
  induction fs generalizing n
  case nil => exact Nat.le_refl n
  case cons g fs ih =>
    have hg := le_roundUp (n := n) (ha g)
    rw [place]
    split
    case isTrue  => exact hg
    case isFalse => exact Nat.le_trans (Nat.le_trans hg <| Nat.le_add_right ..) ih

theorem place_add_size_le (h : f ∈ fs) : place type f fs n + (type f).size ≤ finish type fs n := by
  induction fs generalizing n
  case nil => cases h
  case cons g fs ih =>
    rw [place, finish]
    split
    case isTrue hg  => exact hg ▸ le_finish ha
    case isFalse hg => exact ih <| (List.mem_cons.mp h).resolve_left (Ne.symm hg)

-- The members of a struct lie inside of it.
theorem offsetof_add_size_le (h : f ∈ fs) : offsetof type fs f + (type f).size ≤ (struct type fs).size := by
  refine Nat.le_trans (place_add_size_le ha h) (le_roundUp ?_)
  clear h
  induction fs
  case nil     => exact Nat.one_pos
  case cons ih => exact Nat.lt_of_lt_of_le ih (Nat.le_max_right ..)

-- They do not overlap.
theorem offsetof_add_size_le_or (hf : f ∈ fs) (hg : g ∈ fs) (h : f ≠ g) :
    offsetof type fs f + (type f).size ≤ offsetof type fs g ∨
    offsetof type fs g + (type g).size ≤ offsetof type fs f := by
  unfold offsetof
  generalize 0 = n
  induction fs generalizing n
  case nil => cases hf
  case cons x fs ih =>
    rw [place, place]
    by_cases hx : x = f
    case pos =>
      subst hx
      rw [if_pos rfl, if_neg h]
      exact .inl <| le_place ha
    case neg =>
      rw [if_neg hx]
      have hf := (List.mem_cons.mp hf).resolve_left (Ne.symm hx)
      split
      case isTrue hx =>
        subst hx
        exact .inr <| le_place ha
      case isFalse hx => exact ih hf ((List.mem_cons.mp hg).resolve_left (Ne.symm hx)) _

end Struct
end Layout
