import Mathlib.Data.BitVec
import Mathlib.Data.List.Basic

namespace UnixProgramming.Lib

abbrev Byte := BitVec 8

/-- Byte-addressed memory; addresses wrap at `2 ^ w`. -/
abbrev Memory (w : Nat) := BitVec w → Byte

/-- Byte `i` of a word, the lowest first. -/
def byteOf (v : BitVec k) (i : Nat) : Byte := v.extractLsb' (8 * i) 8

/-- The word whose byte `i` is `f i`. -/
def ofBytes : (n : Nat) → (Nat → Byte) → BitVec (8 * n)
  | 0, _ => 0
  | n + 1, f => (f n ++ ofBytes n f).cast (by omega)

/-- The little-endian word of `n` bytes at `a`. -/
def load (n : Nat) (m : Memory w) (a : BitVec w) : BitVec (8 * n) :=
  ofBytes n (fun i => m (a + BitVec.ofNat w i))

/-- How far `x` lies above `a`, going round the end of the address space. -/
def offset (a x : BitVec w) : Nat := (x - a).toNat

/-- Memory after the `n` low bytes of `v` are stored at `a`. -/
def store (n : Nat) (m : Memory w) (a : BitVec w) (v : BitVec k) : Memory w := fun x =>
  if offset a x < n then byteOf v (offset a x) else m x

theorem byteOf_eq_iff {u v : BitVec k} {i : Nat} :
    byteOf u i = byteOf v i ↔ ∀ j < 8, u.getLsbD (8 * i + j) = v.getLsbD (8 * i + j) := by
  constructor
  · intro h j hj
    have hb := congrArg (fun b : Byte => b.getLsbD j) h
    simpa [byteOf, hj] using hb
  · intro h
    apply BitVec.eq_of_getLsbD_eq
    intro j hj
    simpa [byteOf, hj] using h j hj

/-- Words of `n` bytes with the same bytes are equal. -/
theorem word_ext {n : Nat} {u v : BitVec (8 * n)} (h : ∀ i < n, byteOf u i = byteOf v i) :
    u = v := by
  apply BitVec.eq_of_getLsbD_eq
  intro i hi
  have hb := byteOf_eq_iff.mp (h (i / 8) (by omega)) (i % 8) (Nat.mod_lt _ (by omega))
  rwa [Nat.div_add_mod] at hb

theorem byteOf_ofBytes (f : Nat → Byte) {n i : Nat} (hi : i < n) :
    byteOf (ofBytes n f) i = f i := by
  induction n with
  | zero => omega
  | succ n ih =>
    apply BitVec.eq_of_getLsbD_eq
    intro j hj
    simp only [byteOf, BitVec.getLsbD_extractLsb', ofBytes, BitVec.getLsbD_cast,
      BitVec.getLsbD_append, hj, decide_true, Bool.true_and]
    by_cases hn : i = n
    · subst hn
      simp
    · have hlt : i < n := by omega
      have hb := congrArg (fun b : Byte => b.getLsbD j) (ih hlt)
      simp only [byteOf, BitVec.getLsbD_extractLsb', hj, decide_true, Bool.true_and] at hb
      rw [← hb]
      simp [show 8 * i + j < 8 * n by omega]

theorem byteOf_load (m : Memory w) (a : BitVec w) {n i : Nat} (hi : i < n) :
    byteOf (load n m a) i = m (a + BitVec.ofNat w i) :=
  byteOf_ofBytes _ hi

theorem load_eq_iff {m : Memory w} {a : BitVec w} {n : Nat} {v : BitVec (8 * n)} :
    v = load n m a ↔ ∀ i < n, byteOf v i = m (a + BitVec.ofNat w i) := by
  constructor
  · rintro rfl i hi
    exact byteOf_load m a hi
  · intro h
    apply word_ext
    intro i hi
    rw [h i hi, byteOf_load m a hi]

theorem offset_add (a : BitVec w) {i : Nat} (hi : i < 2 ^ w) :
    offset a (a + BitVec.ofNat w i) = i := by
  unfold offset
  rw [BitVec.add_comm, BitVec.add_sub_cancel, BitVec.toNat_ofNat, Nat.mod_eq_of_lt hi]

theorem add_offset (a x : BitVec w) : a + BitVec.ofNat w (offset a x) = x := by
  unfold offset
  rw [BitVec.ofNat_toNat, BitVec.setWidth_eq, BitVec.add_comm, BitVec.sub_add_cancel]

@[simp] theorem offset_self (a : BitVec w) : offset a a = 0 := by
  simp [offset]

theorem eq_of_offset_zero {a x : BitVec w} (h : offset a x = 0) : x = a := by
  have hx := add_offset a x
  rw [h] at hx
  simpa using hx.symm

theorem store_inside (m : Memory w) (a : BitVec w) (v : BitVec k) {n : Nat} {x : BitVec w}
    (h : offset a x < n) : store n m a v x = byteOf v (offset a x) := by
  simp [store, h]

theorem store_outside (m : Memory w) (a : BitVec w) (v : BitVec k) {n : Nat} {x : BitVec w}
    (h : n ≤ offset a x) : store n m a v x = m x := by
  simp [store, Nat.not_lt.mpr h]

theorem store_offset (m : Memory w) (a : BitVec w) (v : BitVec k) {n i : Nat}
    (hn : n ≤ 2 ^ w) (hi : i < n) :
    store n m a v (a + BitVec.ofNat w i) = byteOf v i := by
  have ho := offset_add a (Nat.lt_of_lt_of_le hi hn)
  rw [store_inside m a v (by omega), ho]

/-- A load reads back the word just stored. -/
theorem load_store_same (m : Memory w) (a : BitVec w) {n : Nat} (v : BitVec (8 * n))
    (hn : n ≤ 2 ^ w) : load n (store n m a v) a = v := by
  symm
  apply load_eq_iff.mpr
  intro i hi
  rw [store_offset m a v hn hi]

theorem load_congr {m m' : Memory w} {a : BitVec w} {n : Nat}
    (h : ∀ i < n, m' (a + BitVec.ofNat w i) = m (a + BitVec.ofNat w i)) :
    load n m' a = load n m a := by
  apply word_ext
  intro i hi
  rw [byteOf_load m' a hi, byteOf_load m a hi, h i hi]

/-- The `n` bytes at `a` and the `p` bytes at `b` have none in common. -/
def Apart (a : BitVec w) (n : Nat) (b : BitVec w) (p : Nat) : Prop :=
  ∀ i < n, ∀ j < p, a + BitVec.ofNat w i ≠ b + BitVec.ofNat w j

instance (a : BitVec w) (n : Nat) (b : BitVec w) (p : Nat) : Decidable (Apart a n b p) :=
  inferInstanceAs (Decidable (∀ i < n, ∀ j < p, a + BitVec.ofNat w i ≠ b + BitVec.ofNat w j))

/-- The two memories have the same `n` bytes at `a`. -/
def Agree (m m' : Memory w) (a : BitVec w) (n : Nat) : Prop :=
  ∀ i < n, m' (a + BitVec.ofNat w i) = m (a + BitVec.ofNat w i)

section Regions
variable {m m' m'' : Memory w} {a b : BitVec w} {n p i j l k : Nat}

theorem Apart.symm (h : Apart a n b p) : Apart b p a n := by
  intro j hj i hi he
  exact h i hi j hj he.symm

/-- Parts of two regions that are apart are apart. -/
theorem Apart.part (h : Apart a n b p) (hi : i + l ≤ n) (hj : j + k ≤ p) :
    Apart (a + BitVec.ofNat w i) l (b + BitVec.ofNat w j) k := by
  intro x hx y hy
  rw [BitVec.add_assoc, BitVec.add_assoc, ← BitVec.ofNat_add, ← BitVec.ofNat_add]
  exact h (i + x) (by omega) (j + y) (by omega)

/-- Parts of one region that do not meet are apart. -/
theorem Apart.slots (a : BitVec w) (hi : i + l ≤ 2 ^ w) (hj : j + k ≤ 2 ^ w)
    (h : i + l ≤ j ∨ j + k ≤ i) : Apart (a + BitVec.ofNat w i) l (a + BitVec.ofNat w j) k := by
  intro x hx y hy he
  rw [BitVec.add_assoc, BitVec.add_assoc, ← BitVec.ofNat_add, ← BitVec.ofNat_add] at he
  have ho := congrArg (offset a) he
  rw [offset_add a (by omega), offset_add a (by omega)] at ho
  omega

theorem Agree.refl (m : Memory w) (a : BitVec w) (n : Nat) : Agree m m a n := by
  intro i _
  rfl

theorem Agree.trans (h : Agree m m' a n) (h' : Agree m' m'' a n) : Agree m m'' a n := by
  intro i hi
  rw [h' i hi, h i hi]

theorem Agree.part (h : Agree m m' a n) (hi : i + l ≤ n) :
    Agree m m' (a + BitVec.ofNat w i) l := by
  intro x hx
  rw [BitVec.add_assoc, ← BitVec.ofNat_add]
  exact h (i + x) (by omega)

theorem Agree.load (h : Agree m m' a n) : load n m' a = load n m a :=
  load_congr h

theorem Apart.agree (h : Apart a n b p) (m : Memory w) (v : BitVec k) :
    Agree m (store p m b v) a n := by
  intro i hi
  apply store_outside
  by_contra hlt
  exact h i hi (offset b (a + BitVec.ofNat w i)) (by omega) (add_offset b _).symm

/-- A store inside a region changes nothing outside it. -/
theorem store_part (m : Memory w) (a : BitVec w) (v : BitVec k) (hi : i + l ≤ n) {x : BitVec w}
    (h : n ≤ offset a x) : store l m (a + BitVec.ofNat w i) v x = m x := by
  apply store_outside
  by_contra hlt
  have hx := add_offset (a + BitVec.ofNat w i) x
  rw [BitVec.add_assoc, ← BitVec.ofNat_add] at hx
  have ho : offset a x ≤ i + offset (a + BitVec.ofNat w i) x := by
    conv_lhs => rw [← hx]
    unfold offset
    rw [BitVec.add_comm a, BitVec.add_sub_cancel, BitVec.toNat_ofNat]
    exact Nat.mod_le _ _
  omega

end Regions

/-- Memory after the words `vs` are stored one behind the other from `a` on. -/
def fill (n : Nat) (m : Memory w) (a : BitVec w) : List (BitVec k) → Memory w
  | [] => m
  | v :: vs => fill n (store n m a v) (a + BitVec.ofNat w n) vs

section Fill
variable {m : Memory w} {a b : BitVec w} {n p i : Nat}

theorem agree_fill {vs : List (BitVec k)} (h : Apart b p a (n * vs.length)) :
    Agree m (fill n m a vs) b p := by
  induction vs generalizing m a with
  | nil => exact Agree.refl m b p
  | cons v vs ih =>
    have hhead : Apart b p a n := by
      simpa using h.part (i := 0) (j := 0) (l := p) (k := n) (by omega)
        (by simp [Nat.mul_succ])
    have htail : Apart b p (a + BitVec.ofNat w n) (n * vs.length) := by
      simpa using h.part (i := 0) (j := n) (l := p) (k := n * vs.length) (by omega)
        (by rw [List.length_cons, Nat.mul_succ, Nat.add_comm])
    exact (hhead.agree m v).trans (ih htail)

/-- Each word is read back where it was stored. -/
theorem load_fill {vs : List (BitVec (8 * n))} {v : BitVec (8 * n)}
    (hn : n * vs.length ≤ 2 ^ w) (h : vs[i]? = some v) :
    load n (fill n m a vs) (a + BitVec.ofNat w (n * i)) = v := by
  induction vs generalizing m a i with
  | nil => simp at h
  | cons u vs ih =>
    rw [List.length_cons, Nat.mul_succ] at hn
    cases i with
    | zero =>
      obtain rfl : u = v := by simpa using h
      have happ : Apart a n (a + BitVec.ofNat w n) (n * vs.length) := by
        simpa using Apart.slots (i := 0) a (l := n) (by omega) (by omega) (by omega)
      rw [fill, Nat.mul_zero, BitVec.add_zero, (agree_fill happ).load]
      exact load_store_same m a u (by omega)
    | succ i =>
      have hi : a + BitVec.ofNat w (n * (i + 1)) =
          a + BitVec.ofNat w n + BitVec.ofNat w (n * i) := by
        rw [BitVec.add_assoc, ← BitVec.ofNat_add, Nat.mul_succ, Nat.add_comm]
      rw [fill, hi]
      exact ih (by omega) (by simpa using h)

end Fill

/-- The `n` bytes from `a` on. -/
def window (m : Memory w) (a : BitVec w) (n : Nat) : List Byte :=
  (List.range n).map fun i => m (a + BitVec.ofNat w i)

section Window
variable {w : Nat} (m : Memory w) (a : BitVec w)

@[simp] theorem window_zero : window m a 0 = [] := rfl

theorem window_add (n k : Nat) :
    window m a (n + k) = window m a n ++ window m (a + BitVec.ofNat w n) k := by
  unfold window
  rw [List.range_add, List.map_append, List.map_map]
  congr 1
  apply List.map_congr_left
  intro i _
  simp only [Function.comp_apply]
  rw [BitVec.ofNat_add, BitVec.add_assoc]

theorem window_succ (n : Nat) : window m a (n + 1) = m a :: window m (a + 1) n := by
  rw [Nat.add_comm, window_add]
  simp [window]

@[simp] theorem length_window (n : Nat) : (window m a n).length = n := by
  simp [window]

theorem prefix_window {n k : Nat} (h : n ≤ k) : window m a n <+: window m a k := by
  obtain ⟨j, rfl⟩ := Nat.exists_eq_add_of_le h
  rw [window_add]
  exact List.prefix_append _ _

/-- A list begins with a window when it has its bytes one by one. -/
theorem window_prefix_iff {n : Nat} {bs : List Byte} :
    window m a n <+: bs ↔ ∀ i < n, bs[i]? = some (m (a + BitVec.ofNat w i)) := by
  rw [List.prefix_iff_getElem?]
  simp only [length_window]
  refine forall_congr' fun i => forall_congr' fun hi => ?_
  simp [window]

theorem drop_window {n k : Nat} (h : n ≤ k) :
    (window m a k).drop n = window m (a + BitVec.ofNat w n) (k - n) := by
  obtain ⟨j, rfl⟩ := Nat.exists_eq_add_of_le h
  rw [window_add, List.drop_left' (length_window m a n), Nat.add_sub_cancel_left]

end Window

/-- `img` with the value `v` laid over the addresses of `s`. -/
def overlay [DecidableEq α] (img : α → β) (s : List α) (v : β) : α → β := fun x =>
  if x ∈ s then v else img x

section Overlay
variable [DecidableEq α] {img : α → β} {s t : List α} {v : β} {x : α}

@[simp] theorem overlay_nil : overlay img [] v = img := by
  funext x
  simp [overlay]

theorem overlay_mem (h : x ∈ s) : overlay img s v x = v := by
  simp [overlay, h]

theorem overlay_not_mem (h : x ∉ s) : overlay img s v x = img x := by
  simp [overlay, h]

theorem overlay_congr (h : ∀ x, x ∈ s ↔ x ∈ t) : overlay img s v = overlay img t v := by
  funext x
  simp [overlay, h x]

/-- An overlay is known by its values on and off the covered addresses. -/
theorem eq_overlay {f : α → β} (hin : ∀ x ∈ s, f x = v) (hout : ∀ x, x ∉ s → f x = img x) :
    f = overlay img s v := by
  funext x
  by_cases h : x ∈ s
  · rw [hin x h, overlay_mem h]
  · rw [hout x h, overlay_not_mem h]

end Overlay

end UnixProgramming.Lib
