import UnixProgramming.Lib.Text

namespace UnixProgramming.Lib

/-- The range of a `long long`, which `strtoll` does not leave. -/
def clamp (n : Int) : Int := max (-2 ^ 63) (min (2 ^ 63 - 1) n)

/-- A number in decimal. -/
def literal (n : Int) : String :=
  String.ofList ((if n < 0 then ['-'] else []) ++ Nat.toDigits 10 n.natAbs)

/-- `%#llx`. -/
def hexText (v : BitVec 64) : String :=
  String.ofList ((if v = 0 then [] else ['0', 'x']) ++ Nat.toDigits 16 v.toNat)

section Reading
variable {ds rest : List Char} {base b : Nat}

theorem takeWhile_stops (digits : ∀ c ∈ ds, isDigitIn b c = true) (stops : Stops b rest) :
    (ds ++ rest).takeWhile (isDigitIn b) = ds := by
  have hspan := span_append digits stops
  rw [List.span_eq_takeWhile_dropWhile] at hspan
  exact congrArg Prod.fst hspan

/-- `strtoll` reads blanks, a sign, a prefix that tells the base, and the digits behind it. -/
theorem strtollInt_eq (lead s : List Char) (neg : Bool) (blank : ∀ c ∈ lead, isSpace c = true) (solid : ∀ c ∈ s.head?, isSpace c = false)
    (sign : (takeSign s).1 = neg) (number : takeBase base (takeSign s).2 = (b, ds ++ rest))
    (digits : ∀ c ∈ ds, isDigitIn b c = true) (stops : Stops b rest) :
    strtollInt base (lead ++ s) =
      clamp (if neg then -(digitsValue b ds : Int) else (digitsValue b ds : Int)) := by
  have hdrop : (lead ++ s).dropWhile isSpace = s := by
    rw [List.dropWhile_append_of_pos blank]
    cases s with
    | nil => rfl
    | cons c s => exact List.dropWhile_cons_of_neg (by simp [solid c rfl])
  unfold strtollInt
  rw [hdrop]
  dsimp only
  rw [number, sign]
  dsimp only
  rw [takeWhile_stops digits stops]
  rfl

theorem clamp_id {n : Int} (low : -2 ^ 63 ≤ n) (high : n < 2 ^ 63) : clamp n = n := by
  unfold clamp
  omega

@[simp] theorem clamp_clamp (n : Int) : clamp (clamp n) = clamp n := by
  unfold clamp
  omega

theorem clamp_strtollInt (base : Nat) (s : List Char) : clamp (strtollInt base s) = strtollInt base s :=
  clamp_clamp _

end Reading

section Digits
variable {base n : Nat} {rest : List Char}

theorem toDigits_ne_nil (some_ : 1 < base) (n : Nat) : Nat.toDigits base n ≠ [] := by
  rw [Nat.toDigits_eq_if some_]
  split <;> simp

theorem digitChar_ne_zero : ∀ n < 16, n ≠ 0 → n.digitChar ≠ '0' := by decide

/-- The digits of a number other than zero do not begin with a zero. -/
theorem toDigits_head (some_ : 1 < base) (hex : base ≤ 16) (pos : n ≠ 0) :
    (Nat.toDigits base n).head? ≠ some '0' := by
  induction n using Nat.strong_induction_on with
  | h n ih =>
    rw [Nat.toDigits_eq_if some_]
    by_cases hn : n < base
    · rw [if_pos hn]
      intro h
      exact digitChar_ne_zero n (by omega) pos (Option.some.inj h)
    · rw [if_neg hn]
      obtain ⟨d, tail, hd⟩ := List.exists_cons_of_ne_nil (toDigits_ne_nil some_ (n / base))
      have hlt : n / base < n := Nat.div_lt_self (by omega) some_
      have hpos : n / base ≠ 0 := (Nat.div_pos (by omega) (by omega)).ne'
      have hh := ih (n / base) hlt hpos
      rw [hd] at hh ⊢
      exact hh

theorem takeBase_decimal {ds : List Char} (head : ds.head? ≠ some '0') : takeBase 0 ds = (10, ds) := by
  have hprefix : hexPrefix ds = none := by
    unfold hexPrefix
    split
    · exact absurd rfl head
    · rfl
  simp [takeBase, hprefix, head]

theorem toDigits_hex (base : Nat) (some_ : 1 < base) (hex : base ≤ 16) (n : Nat) :
    ∀ c ∈ Nat.toDigits base n, isDigitIn 16 c = true := by
  intro c hc
  have h := (toDigits_spec some_ hex n).1 c hc
  unfold isDigitIn at h ⊢
  have h := of_decide_eq_true h
  exact decide_eq_true (by omega)

theorem toDigits_solid (some_ : 1 < base) (hex : base ≤ 16) :
    ∀ c ∈ (Nat.toDigits base n).head?, isSpace c = false := by
  intro c hc
  exact (digit_plain (toDigits_hex base some_ hex n c (List.mem_of_mem_head? hc))).1

/-- The digits of a number are read back, behind a sign or without one. -/
theorem strtollInt_toDigits (neg : Bool) (pos : n ≠ 0 ∨ base = 10) (either : base = 0 ∨ base = 10) :
    strtollInt base ((if neg then ['-'] else []) ++ Nat.toDigits 10 n) =
      clamp (if neg then -(n : Int) else (n : Int)) := by
  obtain ⟨digits, value⟩ := toDigits_decimal n
  have hbase : takeBase base (Nat.toDigits 10 n) = (10, Nat.toDigits 10 n ++ []) := by
    rw [List.append_nil]
    rcases either with rfl | rfl
    · exact takeBase_decimal (toDigits_head (by decide) (by decide) (pos.resolve_right (by decide)))
    · exact takeBase_ten _
  have hsign : takeSign ((if neg then ['-'] else []) ++ Nat.toDigits 10 n) =
      (neg, Nat.toDigits 10 n) := by
    cases neg with
    | true => rfl
    | false =>
      have h : takeSign (Nat.toDigits 10 n ++ []) = (false, Nat.toDigits 10 n ++ []) :=
        takeSign_digits (toDigits_ne_nil (by decide) n) (toDigits_hex 10 (by decide) (by decide) n)
      rwa [List.append_nil] at h
  have hsolid : ∀ c ∈ ((if neg then ['-'] else []) ++ Nat.toDigits 10 n).head?, isSpace c = false := by
    cases neg with
    | true =>
      intro c hc
      cases hc
      decide
    | false => exact toDigits_solid (by decide) (by decide)
  have h := strtollInt_eq [] _ neg (by simp) hsolid (congrArg Prod.fst hsign)
    (by rw [hsign]; exact hbase) digits (by intro c hc; cases hc)
  rwa [value, List.nil_append] at h

/-- `strtoll` in any base, and `atoi`, read a literal back. -/
theorem strtollInt_literal (either : base = 0 ∨ base = 10) (n : Int) :
    strtollInt base (literal n).toList = clamp n := by
  by_cases hz : n = 0
  · subst hz
    rcases either with rfl | rfl <;> decide
  · have h := strtollInt_toDigits (decide (n < 0)) (.inl (by omega : n.natAbs ≠ 0)) either
    rw [literal, String.toList_ofList]
    by_cases hn : n < 0
    · rw [if_pos hn]
      rw [decide_eq_true hn, if_pos rfl, if_pos rfl] at h
      rw [h]
      congr 1
      omega
    · rw [if_neg hn]
      rw [decide_eq_false hn, if_neg (by simp), if_neg (by simp)] at h
      rw [h]
      congr 1
      omega

/-- What `strtoll` reads is what it reads in the literal of the number. -/
theorem strtoll_literal (s : String) : strtoll (literal (strtollInt 0 s.toList)) = strtoll s := by
  rw [strtoll, strtollInt_literal (.inl rfl), clamp_strtollInt, strtoll]

theorem atoi_literal (s : String) : atoi (literal (strtollInt 10 s.toList)) = atoi s := by
  rw [atoi, strtollInt_literal (.inr rfl), clamp_strtollInt, atoi]

/-- `%#llx` is read back as an unsigned number cut off at the largest signed one. -/
theorem strtoll_hexText (v : BitVec 64) : strtoll (hexText v) = BitVec.ofInt 64 (clamp v.toNat) := by
  by_cases hz : v = 0
  · subst hz
    decide
  · obtain ⟨digits, value⟩ := toDigits_spec (by decide : 1 < 16) (by decide) v.toNat
    obtain ⟨d, tail, hd⟩ := List.exists_cons_of_ne_nil (toDigits_ne_nil (by decide : 1 < 16) v.toNat)
    have hdigit : isDigitIn 16 d = true := digits d (by simp [hd])
    have hbase : takeBase 0 ('0' :: 'x' :: Nat.toDigits 16 v.toNat) =
        (16, Nat.toDigits 16 v.toNat ++ []) := by
      simp [hd, takeBase, hexPrefix, hdigit]
    have h := strtollInt_eq [] ('0' :: 'x' :: Nat.toDigits 16 v.toNat) false
      (by simp) (by intro c hc; cases hc; decide) rfl hbase digits (by intro c hc; cases hc)
    rw [strtoll, hexText, String.toList_ofList, if_neg hz]
    rw [value, List.nil_append, if_neg (by simp)] at h
    exact congrArg (BitVec.ofInt 64) h

/-- The text of `%#llx` is read back as the value exactly when the value is not negative as a
`long long`. -/
theorem strtoll_hexText_iff (v : BitVec 64) : strtoll (hexText v) = v ↔ v.toNat < 2 ^ 63 := by
  rw [strtoll_hexText]
  have hlt := v.isLt
  constructor
  · intro h
    by_contra hge
    have hc : clamp v.toNat = ((2 ^ 63 - 1 : Nat) : Int) := by
      unfold clamp
      omega
    rw [hc, BitVec.ofInt_natCast] at h
    have ht := congrArg BitVec.toNat h
    rw [BitVec.toNat_ofNat, Nat.mod_eq_of_lt (by decide)] at ht
    omega
  · intro h
    rw [clamp_id (by omega) (by omega), BitVec.ofInt_natCast, BitVec.ofNat_toNat, BitVec.setWidth_eq]

end Digits

example : literal (-42) = "-42" := by decide

example : hexText 0x401000 = "0x401000" := by decide

end UnixProgramming.Lib
