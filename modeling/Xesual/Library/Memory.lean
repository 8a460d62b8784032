import Xesual.Library.Bytes

-- A memory with 64-bit addresses, which wrap around at its end. It is accessed in words of 64 bits, at any address.

def Memory := BitVec 64 → BitVec 8

namespace Memory

variable {m m' : Memory} {a b k v : BitVec 64} {n n' : Nat}

-- The addresses of `n` bytes from `a` on.
def region (a : BitVec 64) (n : Nat) : Set (BitVec 64) :=
  { k | (k - a).toNat < n }

-- The bytes of a memory from `a` on.
def bytes (m : Memory) (a : BitVec 64) : Bytes :=
  fun i => m (a + .ofNat 64 i)

def load (m : Memory) (a : BitVec 64) : BitVec 64 :=
  .ofNat 64 ((m.bytes a).load 0 8)

def store (m : Memory) (a v : BitVec 64) : Memory :=
  fun k => (m.bytes a).store 0 8 v.toNat (k - a).toNat

-- Setting `n` bytes to the same value.
def fill (m : Memory) (a : BitVec 64) (b : BitVec 8) (n : Nat) : Memory :=
  fun k => if (k - a).toNat < n then b else m k

-- The memory in which all bytes are zero.
def zero : Memory := fun _ => 0

section Region

theorem region_subset (h : (b - a).toNat + n ≤ n') : region b n ⊆ region a n' := by
  intro k hk
  simp only [region, Set.mem_ofPred_eq] at hk ⊢
  bv_omega

theorem disjoint_region (h : n ≤ (b - a).toNat) (h' : n' ≤ (a - b).toNat) : Disjoint (region a n) (region b n') := by
  refine Set.disjoint_left.mpr fun k hk hk' => ?_
  simp only [region, Set.mem_ofPred_eq] at hk hk'
  bv_omega

theorem self_mem_region (h : 0 < n) : a ∈ region a n := by
  simpa only [region, Set.mem_ofPred_eq, BitVec.sub_self, BitVec.toNat_zero] using h

-- Regions that do not wrap around are intervals.
theorem mem_region_iff (h : a.toNat + n ≤ 2 ^ 64) : k ∈ region a n ↔ a.toNat ≤ k.toNat ∧ k.toNat < a.toNat + n := by
  simp only [region, Set.mem_ofPred_eq]
  bv_omega

theorem region_subset_of_le (h : a.toNat ≤ b.toNat) (h' : b.toNat + n ≤ a.toNat + n') : region b n ⊆ region a n' := by
  apply region_subset
  bv_omega

theorem disjoint_region_of_le (h : a.toNat + n ≤ b.toNat) (h' : b.toNat + n' ≤ 2 ^ 64) :
    Disjoint (region a n) (region b n') := by
  refine Set.disjoint_left.mpr fun k hk hk' => ?_
  have hk := mem_region_iff (by have := b.isLt; omega) |>.mp hk
  have hk' := mem_region_iff h' |>.mp hk'
  omega

theorem le_of_disjoint_region (h : Disjoint (region a n) (region b n')) (hab : a.toNat ≤ b.toNat) (hn : 0 < n') :
    a.toNat + n ≤ b.toNat := by
  by_contra hlt
  have hb : b ∈ region a n := by
    simp only [region, Set.mem_ofPred_eq]
    bv_omega
  exact Set.disjoint_left.mp h hb (self_mem_region hn)

-- Regions with offsets to the same address.
theorem disjoint_region_add {x y : BitVec 64} (h : x.toNat + n ≤ y.toNat) (h' : y.toNat + n' ≤ 2 ^ 64) :
    Disjoint (region (a + x) n) (region (a + y) n') := by
  refine Set.disjoint_left.mpr fun k hk hk' => ?_
  have hx : (k - (a + x)).toNat = (k - a - x).toNat := by congr 1; bv_omega
  have hy : (k - (a + y)).toNat = (k - a - y).toNat := by congr 1; bv_omega
  simp only [region, Set.mem_ofPred_eq, hx, hy] at hk hk'
  generalize k - a = d at *
  bv_omega

-- A region of several parts.
theorem region_add {a x y : BitVec 64} (h : x.toNat + y.toNat < 2 ^ 64) :
    region a (x + y).toNat = region a x.toNat ∪ region (a + x) y.toNat := by
  ext k
  simp only [region, Set.mem_union, Set.mem_ofPred_eq]
  bv_omega

end Region

section Numbers

-- Numbers of `n` bytes, in little-endian order.
def loadBytes (m : Memory) (a : BitVec 64) (n : Nat) : Nat :=
  (m.bytes a).load 0 n

def storeBytes (m : Memory) (a : BitVec 64) (n v : Nat) : Memory :=
  fun k => (m.bytes a).store 0 n v (k - a).toNat

theorem loadBytes_congr (hn : n ≤ 2 ^ 64) (h : Set.EqOn m m' (region a n)) : m.loadBytes a n = m'.loadBytes a n := by
  refine Bytes.load_congr fun k _ hk => h ?_
  simp only [region, Set.mem_ofPred_eq]
  bv_omega

theorem loadBytes_storeBytes {v : Nat} (hn : n ≤ 2 ^ 64) : (m.storeBytes a n v).loadBytes a n = v % 256 ^ n := by
  have h : ((m.storeBytes a n v).bytes a).load 0 n = ((m.bytes a).store 0 n v).load 0 n := by
    refine Bytes.load_congr fun k _ hk => ?_
    have hk : (a + .ofNat 64 k - a).toNat = k := by bv_omega
    rw [bytes, storeBytes, hk]
  rw [loadBytes, h, Bytes.load_store]

theorem storeBytes_of_not_mem {v : Nat} (h : k ∉ region a n) : m.storeBytes a n v k = m k := by
  have hk : ¬(0 ≤ (k - a).toNat ∧ (k - a).toNat < 0 + n) := by simpa [region] using h
  have ha : a + .ofNat 64 (k - a).toNat = k := by bv_omega
  rw [storeBytes, Bytes.store, if_neg hk, bytes, ha]

end Numbers

section Words

theorem load_congr (h : Set.EqOn m m' (region a 8)) : m.load a = m'.load a :=
  congrArg (BitVec.ofNat 64) <| loadBytes_congr (by decide) h

theorem load_zero : zero.load a = 0 :=
  congrArg (BitVec.ofNat 64) <| Bytes.load_of_forall_zero fun _ => rfl

theorem load_store : (m.store a v).load a = v := by
  have h : (m.store a v).loadBytes a 8 = v.toNat % 256 ^ 8 := loadBytes_storeBytes (by decide)
  have hv : v.toNat % 256 ^ 8 = v.toNat := Nat.mod_eq_of_lt v.isLt
  rw [loadBytes] at h
  rw [load, h, hv, BitVec.ofNat_toNat, BitVec.setWidth_eq]

theorem store_of_not_mem (h : k ∉ region a 8) : m.store a v k = m k :=
  storeBytes_of_not_mem h

theorem load_store_of_disjoint (h : Disjoint (region a 8) (region b 8)) : (m.store a v).load b = m.load b :=
  load_congr fun _ hk => store_of_not_mem <| Set.disjoint_right.mp h hk

-- Storing the value that is there already.
theorem store_load : m.store a (m.load a) = m := by
  have hl : (m.bytes a).load 0 8 < 2 ^ 64 := Bytes.load_lt
  have hv : (m.load a).toNat = (m.bytes a).load 0 8 := by
    rw [load, BitVec.toNat_ofNat, Nat.mod_eq_of_lt hl]
  funext k
  have ha : a + .ofNat 64 (k - a).toNat = k := by bv_omega
  rw [store, hv, Bytes.store_load, bytes, ha]

-- Only the last one of several stores to the same word has an effect.
@[simp]
theorem store_store {w : BitVec 64} : (m.store a v).store a w = m.store a w := by
  funext k
  by_cases hk : k ∈ region a 8
  case pos =>
    have hk : 0 ≤ (k - a).toNat ∧ (k - a).toNat < 0 + 8 := by simpa [region] using hk
    simp only [store, Bytes.store, hk, true_and, ↓reduceIte]
  case neg => rw [store_of_not_mem hk, store_of_not_mem hk, store_of_not_mem hk]

theorem load_fill_of_disjoint {c : BitVec 8} (h : Disjoint (region a n) (region b 8)) :
    (m.fill a c n).load b = m.load b :=
  load_congr fun _ hk => if_neg <| Set.disjoint_right.mp h hk

theorem load_fill_zero (h : (b - a).toNat + 8 ≤ n) : (m.fill a 0 n).load b = 0 := by
  have hz : ((m.fill a 0 n).bytes b).load 0 8 = (zero.bytes b).load 0 8 := by
    refine Bytes.load_congr fun k _ hk => if_pos ?_
    bv_omega
  rw [load, hz]
  exact load_zero

end Words

section HalfWords

-- The same for words of 32 bits.
variable {w : BitVec 32}

def load32 (m : Memory) (a : BitVec 64) : BitVec 32 :=
  .ofNat 32 (m.loadBytes a 4)

def store32 (m : Memory) (a : BitVec 64) (w : BitVec 32) : Memory :=
  m.storeBytes a 4 w.toNat

theorem load32_store32 : (m.store32 a w).load32 a = w := by
  have hw : w.toNat % 256 ^ 4 = w.toNat := Nat.mod_eq_of_lt w.isLt
  rw [load32, store32, loadBytes_storeBytes (by decide), hw, BitVec.ofNat_toNat, BitVec.setWidth_eq]

end HalfWords

-- The bytes outside of `S` are the same in both memories.
def Changes (m m' : Memory) (S : Set (BitVec 64)) : Prop :=
  Set.EqOn m' m Sᶜ

namespace Changes

variable {m'' : Memory} {S T : Set (BitVec 64)}

theorem refl : Changes m m S :=
  fun _ _ => rfl

theorem mono (h : Changes m m' S) (hs : S ⊆ T) : Changes m m' T :=
  Set.EqOn.mono (Set.compl_subset_compl.mpr hs) h

theorem trans (h : Changes m m' S) (h' : Changes m' m'' S) : Changes m m'' S :=
  Set.EqOn.trans h' h

theorem union (h : Changes m m' S) (h' : Changes m' m'' T) : Changes m m'' (S ∪ T) :=
  (h.mono Set.subset_union_left).trans (h'.mono Set.subset_union_right)

theorem eqOn (h : Changes m m' S) (hd : Disjoint T S) : Set.EqOn m' m T :=
  Set.EqOn.mono (Set.subset_compl_iff_disjoint_right.mpr hd) h

theorem load (h : Changes m m' S) (hd : Disjoint (region a 8) S) : m'.load a = m.load a :=
  load_congr (h.eqOn hd)

theorem load32 (h : Changes m m' S) (hd : Disjoint (region a 4) S) : m'.load32 a = m.load32 a :=
  congrArg (BitVec.ofNat 32) <| loadBytes_congr (by decide) (h.eqOn hd)

theorem store : Changes m (m.store a v) (region a 8) :=
  fun _ hk => store_of_not_mem hk

theorem store32 {w : BitVec 32} : Changes m (m.store32 a w) (region a 4) :=
  fun _ hk => storeBytes_of_not_mem hk

theorem fill {c : BitVec 8} : Changes m (m.fill a c n) (region a n) :=
  fun _ hk => if_neg hk

end Changes

section Fields

-- A record whose fields are words that follow one another in the order of `layout`.
variable {φ ψ : Type} [DecidableEq φ] [DecidableEq ψ] {layout layout' : List φ} {f g : φ}

def field (m : Memory) (layout : List φ) (a : BitVec 64) (f : φ) : BitVec 64 :=
  m.load (a + 8 * .ofNat 64 (layout.idxOf f))

@[simp]
theorem field_cons_self : m.field (f :: layout) a f = m.load a := by
  simp [field]

theorem field_cons_of_ne (h : g ≠ f) : m.field (g :: layout) a f = m.field layout (a + 8) f := by
  rw [field, field, List.idxOf_cons_ne _ h]
  congr 1
  bv_omega

theorem field_append_of_mem (h : f ∈ layout) : m.field (layout ++ layout') a f = m.field layout a f := by
  rw [field, field, List.idxOf_append_of_mem h]

theorem field_append_of_not_mem (h : f ∉ layout) :
    m.field (layout ++ layout') a f = m.field layout' (a + 8 * .ofNat 64 layout.length) f := by
  rw [field, field, List.idxOf_append_of_notMem h]
  congr 1
  bv_omega

theorem field_map {e : φ → ψ} (h : Function.Injective e) : m.field (layout.map e) a (e f) = m.field layout a f := by
  induction layout generalizing a
  case nil => rfl
  case cons g layout ih =>
    by_cases hg : g = f
    case pos => simp [hg]
    case neg => rw [List.map_cons, field_cons_of_ne (h.ne hg), field_cons_of_ne hg, ih]

-- The fields only depend on the words of the record.
theorem field_congr (hf : f ∈ layout) (hl : 8 * layout.length ≤ 2 ^ 64)
    (h : Set.EqOn m m' (region a (8 * layout.length))) : m.field layout a f = m'.field layout a f := by
  have hi : layout.idxOf f < layout.length := List.idxOf_lt_length_of_mem hf
  refine load_congr <| h.mono <| region_subset ?_
  have ha : (a + 8 * .ofNat 64 (layout.idxOf f) - a).toNat = 8 * layout.idxOf f := by bv_omega
  omega

end Fields
end Memory
