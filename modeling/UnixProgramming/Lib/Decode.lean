import UnixProgramming.Lib.Memory

namespace UnixProgramming.Lib

/-- How the instruction that some bytes begin with is read, if they begin with one. It is made of
at most `longest` of them, and what comes after these makes no difference. -/
structure Decoder (w : Nat) (bytes : ι → List Byte) (longest : Nat) where
  one : BitVec w → List Byte → Option ι
  begins {a bs i} : one a bs = some i → bytes i <+: bs
  sized {a bs i} : one a bs = some i → 0 < (bytes i).length ∧ (bytes i).length ≤ longest
  own {a bs bs' i} : one a bs = some i → bytes i <+: bs' → one a bs' = some i

namespace Decoder
variable {ι : Type} {w longest : Nat} {bytes : ι → List Byte} (D : Decoder w bytes longest)

/-- From left to right, up to bytes that do not begin with an instruction or are cut off in it. -/
def decode (bs : List Byte) (a : BitVec w) : List ι :=
  match _h : D.one a bs with
  | none => []
  | some i => i :: decode (bs.drop (bytes i).length) (a + BitVec.ofNat w (bytes i).length)
termination_by bs.length
decreasing_by
  have hlen := (D.begins _h).length_le
  have hpos := (D.sized _h).1
  rw [List.length_drop]
  omega

/-- The first instructions in memory from `a` on, if there are as many. -/
def linear (m : Memory w) : Nat → BitVec w → List ι
  | 0, _ => []
  | k + 1, a =>
    match D.one a (window m a longest) with
    | none => []
    | some i => i :: linear m k (a + BitVec.ofNat w (bytes i).length)

/-- How many bytes some instructions take. -/
def size (bytes : ι → List Byte) (is : List ι) : Nat := (is.map fun i => (bytes i).length).sum

section Laws
variable {m : Memory w} {a : BitVec w} {k n : Nat} {i : ι}

@[simp] theorem size_nil : size bytes [] = 0 := rfl

@[simp] theorem size_cons (i : ι) (is : List ι) :
    size bytes (i :: is) = (bytes i).length + size bytes is := by
  simp [size]

variable {D}

theorem decode_none {bs : List Byte} (h : D.one a bs = none) : D.decode bs a = [] := by
  rw [decode]
  split
  · rfl
  · rename_i hi
    rw [h] at hi
    cases hi

theorem decode_some {bs : List Byte} (h : D.one a bs = some i) :
    D.decode bs a =
      i :: D.decode (bs.drop (bytes i).length) (a + BitVec.ofNat w (bytes i).length) := by
  rw [decode]
  split
  · rename_i hi
    rw [h] at hi
    cases hi
  · rename_i j hj
    rw [h] at hj
    cases hj
    rfl

theorem linear_none (h : D.one a (window m a longest) = none) (k : Nat) : D.linear m k a = [] := by
  cases k with
  | zero => rfl
  | succ k => rw [linear, h]

theorem linear_some (h : D.one a (window m a longest) = some i) (k : Nat) :
    D.linear m (k + 1) a = i :: D.linear m k (a + BitVec.ofNat w (bytes i).length) := by
  rw [linear, h]

/-- More of the memory than the longest instruction does not change the first one. -/
theorem one_window (h : longest ≤ n) :
    D.one a (window m a n) = D.one a (window m a longest) := by
  have cut : window m a longest <+: window m a n := prefix_window m a h
  cases hl : D.one a (window m a longest) with
  | some i => exact D.own hl ((D.begins hl).trans cut)
  | none =>
    cases hn : D.one a (window m a n) with
    | none => rfl
    | some i =>
      have first : bytes i <+: window m a longest := by
        apply List.prefix_of_prefix_length_le (D.begins hn) cut
        have hfits := (D.sized hn).2
        simpa using hfits
      rw [D.own hn first] at hl
      cases hl

/-- The instruction in memory at `a` is its bytes there. -/
theorem window_one (h : D.one a (window m a longest) = some i) :
    window m a (bytes i).length = bytes i := by
  have cut : window m a (bytes i).length <+: window m a longest := prefix_window m a (D.sized h).2
  exact List.prefix_of_prefix_length_le cut (D.begins h) (by simp) |>.eq_of_length (by simp)

/-- Some bytes are decoded to the first instructions in memory exactly when they begin with the
bytes of these, and with no further instruction behind them if these are too few. -/
theorem take_decode_iff {bs : List Byte} :
    (D.decode bs a).take k = D.linear m k a ↔
      window m a (size bytes (D.linear m k a)) <+: bs ∧
        ((D.linear m k a).length < k →
          D.one (a + BitVec.ofNat w (size bytes (D.linear m k a)))
            (bs.drop (size bytes (D.linear m k a))) = none) := by
  induction k generalizing a bs with
  | zero => simp [linear]
  | succ k ih =>
    cases hl : D.one a (window m a longest) with
    | none =>
      rw [linear_none hl]
      simp only [size_nil, window_zero, List.nil_prefix, List.length_nil, Nat.succ_pos, true_and,
        forall_const, BitVec.add_zero, List.drop_zero]
      cases ho : D.one a bs with
      | none => simp [decode_none ho]
      | some j => simp [decode_some ho]
    | some i =>
      have own : window m a (bytes i).length = bytes i := window_one hl
      rw [linear_some hl, size_cons, window_add, own, BitVec.ofNat_add, ← BitVec.add_assoc,
        ← List.drop_drop, List.length_cons, Nat.add_lt_add_iff_right]
      constructor
      · intro h
        cases ho : D.one a bs with
        | none =>
          rw [decode_none ho] at h
          cases h
        | some j =>
          rw [decode_some ho, List.take_succ_cons] at h
          obtain ⟨rfl, rest⟩ := List.cons.inj h
          obtain ⟨behind, ends⟩ := ih.mp rest
          refine ⟨?_, ends⟩
          obtain ⟨tail, rfl⟩ := D.begins ho
          rw [List.drop_left] at behind
          exact (List.prefix_append_right_inj _).mpr behind
      · rintro ⟨begins, ends⟩
        obtain ⟨tail, rfl⟩ : bytes i <+: bs := (List.prefix_append _ _).trans begins
        rw [List.prefix_append_right_inj] at begins
        rw [List.drop_left] at ends
        rw [decode_some (D.own hl (List.prefix_append _ _)), List.take_succ_cons, List.drop_left,
          ih.mpr ⟨begins, ends⟩]

/-- The instructions come one after the other: the next ones start where the first ones end. -/
theorem linear_add (j k : Nat) :
    D.linear m (j + k) a =
      D.linear m j a ++ D.linear m k (a + BitVec.ofNat w (size bytes (D.linear m j a))) := by
  induction j generalizing a with
  | zero => simp [linear]
  | succ j ih =>
    cases hl : D.one a (window m a longest) with
    | none => simp [linear_none hl]
    | some i =>
      rw [Nat.succ_add, linear_some hl, linear_some hl, ih, size_cons, BitVec.ofNat_add,
        ← BitVec.add_assoc, List.cons_append]

theorem length_linear_le : (D.linear m k a).length ≤ k := by
  induction k generalizing a with
  | zero => simp [linear]
  | succ k ih =>
    cases hl : D.one a (window m a longest) with
    | none => simp [linear_none hl]
    | some i => simpa [linear_some hl] using ih

theorem size_linear_le : size bytes (D.linear m k a) ≤ longest * (D.linear m k a).length := by
  induction k generalizing a with
  | zero => simp [linear]
  | succ k ih =>
    cases hl : D.one a (window m a longest) with
    | none => simp [linear_none hl]
    | some i =>
      have hfits := (D.sized hl).2
      have hrest := ih (a := a + BitVec.ofNat w (bytes i).length)
      rw [linear_some hl, size_cons, List.length_cons, Nat.mul_succ]
      omega

theorem size_map (is : List ι) : size bytes is = ((is.map bytes).map List.length).sum := by
  rw [size, List.map_map]
  rfl

theorem size_append (is js : List ι) : size bytes (is ++ js) = size bytes is + size bytes js := by
  simp [size]

end Laws

end Decoder

end UnixProgramming.Lib
