import Mathlib.Data.BitVec
import Mathlib.Data.List.Basic

namespace UnixProgramming.Lib

/-- `isspace` in the C locale. -/
def isSpace (c : Char) : Bool :=
  c = ' ' || (9 ≤ c.toNat && c.toNat ≤ 13)

/-- The value of a letter or digit in a base up to 36; 36 for anything else. -/
def digitOf (c : Char) : Nat :=
  if '0' ≤ c ∧ c ≤ '9' then c.toNat - '0'.toNat
  else if 'a' ≤ c ∧ c ≤ 'z' then c.toNat - 'a'.toNat + 10
  else if 'A' ≤ c ∧ c ≤ 'Z' then c.toNat - 'A'.toNat + 10
  else 36

def isDigitIn (base : Nat) (c : Char) : Bool := digitOf c < base

/-- The number a run of digits spells, most significant first. -/
def digitsValue (base : Nat) (ds : List Char) : Nat :=
  ds.foldl (fun acc c => acc * base + digitOf c) 0

/-- An optional sign: whether it is `-`, and what follows. -/
def takeSign : List Char → Bool × List Char
  | '-' :: s => (true, s)
  | '+' :: s => (false, s)
  | s => (false, s)

/-- What follows a `0x` that begins a hexadecimal number. -/
def hexPrefix : List Char → Option (List Char)
  | '0' :: x :: d :: s =>
    if (x = 'x' ∨ x = 'X') ∧ isDigitIn 16 d then some (d :: s) else none
  | _ => none

/-- The base and the digits of a number in C notation; `base = 0` reads the prefix. -/
def takeBase (base : Nat) (s : List Char) : Nat × List Char :=
  match hexPrefix s with
  | some s' => if base = 0 ∨ base = 16 then (16, s') else (base, s)
  | none => if base ≠ 0 then (base, s) else if s.head? = some '0' then (8, s) else (10, s)

/-- `strtoll`, as the integer it denotes before it is put into 64 bits. -/
def strtollInt (base : Nat) (s : List Char) : Int :=
  let (neg, s) := takeSign (s.dropWhile isSpace)
  let (base, s) := takeBase base s
  let n : Int := digitsValue base (s.takeWhile (isDigitIn base))
  max (-2 ^ 63) (min (2 ^ 63 - 1) (if neg then -n else n))

/-- `strtoll(s, NULL, 0)`. -/
def strtoll (s : String) : BitVec 64 := BitVec.ofInt 64 (strtollInt 0 s.toList)

/-- `atoi`: `strtol` in base ten, cut down to `int`. -/
def atoi (s : String) : BitVec 32 := BitVec.ofInt 32 (strtollInt 10 s.toList)

/-- The result of one `scanf` conversion. -/
inductive Scan (α : Type)
  | got (a : α) (rest : List Char)
  | mismatch (rest : List Char)
  | eof

/-- Whether a field begins with `0x`. -/
def hexBegun : List Char → Bool
  | '0' :: x :: _ => x = 'x' || x = 'X'
  | _ => false

/-- The digits of a number in a field of `scanf`, and what follows them. Before a hexadecimal number
`0x` is taken even if no digit comes behind it; its zero is a digit then. -/
def scanDigits (base : Nat) (s : List Char) : List Char × List Char :=
  if base = 16 ∧ hexBegun s = true then
    let (ds, rest) := (s.drop 2).span (isDigitIn 16)
    ('0' :: ds, rest)
  else s.span (isDigitIn base)

/-- An unsigned number as `scanf` stores it, by way of `strtoul`. -/
def unsignedOf {w : Nat} (neg : Bool) (n : Nat) : BitVec w :=
  if 2 ^ 64 ≤ n then BitVec.ofNat w (2 ^ 64 - 1)
  else BitVec.ofInt w (if neg then -n else n)

/-- `%llx`. -/
def scanHex (s : List Char) : Scan (BitVec 64) :=
  match s.dropWhile isSpace with
  | [] => .eof
  | s =>
    let (neg, s') := takeSign s
    match scanDigits 16 s' with
    | ([], rest) => .mismatch rest
    | (ds, rest) => .got (unsignedOf neg (digitsValue 16 ds)) rest

theorem char_le {c d : Char} : c ≤ d ↔ c.toNat ≤ d.toNat := by
  rw [Char.le_def, UInt32.le_iff_toNat_le]
  rfl

/-- The characters of a hexadecimal number. -/
theorem hexDigit_range {c : Char} (h : isDigitIn 16 c = true) :
    (48 ≤ c.toNat ∧ c.toNat ≤ 57) ∨ (97 ≤ c.toNat ∧ c.toNat ≤ 102) ∨
      (65 ≤ c.toNat ∧ c.toNat ≤ 70) := by
  unfold isDigitIn digitOf at h
  have h := of_decide_eq_true h
  have h0 : '0'.toNat = 48 := rfl
  have h9 : '9'.toNat = 57 := rfl
  have ha : 'a'.toNat = 97 := rfl
  have hz : 'z'.toNat = 122 := rfl
  have hA : 'A'.toNat = 65 := rfl
  have hZ : 'Z'.toNat = 90 := rfl
  simp only [char_le, h0, h9, ha, hz, hA, hZ] at h
  split at h
  · omega
  · split at h
    · omega
    · split at h <;> omega

/-- A number in `field`, which the width of the conversion cuts off before `beyond`. -/
def scanField (base : Nat) (field beyond : List Char) : Scan (BitVec 32) :=
  let (neg, s) := takeSign field
  match scanDigits base s with
  | ([], rest) => .mismatch (rest ++ beyond)
  | (ds, rest) => .got (unsignedOf neg (digitsValue base ds)) (rest ++ beyond)

/-- `%u` and `%x` of an `unsigned int`, with the width of the conversion if it has one. -/
def scanUnsigned (base : Nat) (width : Option Nat) (s : List Char) : Scan (BitVec 32) :=
  match s.dropWhile isSpace with
  | [] => .eof
  | s =>
    match width with
    | none => scanField base s []
    | some n => scanField base (s.take n) (s.drop n)

theorem unsignedOf_nat {w n : Nat} (h : n < 2 ^ 64) :
    (unsignedOf false n : BitVec w) = BitVec.ofNat w n := by
  rw [unsignedOf, if_neg (by omega)]
  simp

section Conversions
variable {ds lead rest : List Char} {base : Nat} {c : Char}

theorem digit_hex (h : isDigitIn 10 c = true) : isDigitIn 16 c = true := by
  unfold isDigitIn at h ⊢
  have h := of_decide_eq_true h
  exact decide_eq_true (by omega)

/-- A digit is none of the characters that have a meaning of their own to `scanf`. -/
theorem digit_plain (h : isDigitIn 16 c = true) :
    isSpace c = false ∧ c ≠ '-' ∧ c ≠ '+' ∧ c ≠ 'x' ∧ c ≠ 'X' := by
  have ne : ∀ x : Char, isDigitIn 16 x = false → c ≠ x := by
    intro x hx he
    rw [← he, h] at hx
    cases hx
  have hr := hexDigit_range h
  refine ⟨?_, ne '-' (by decide), ne '+' (by decide), ne 'x' (by decide), ne 'X' (by decide)⟩
  simp only [isSpace, ne ' ' (by decide), decide_false, Bool.false_or, Bool.and_eq_false_iff,
    decide_eq_false_iff_not]
  omega

/-- No digit follows. -/
def Stops (base : Nat) (s : List Char) : Prop := ∀ c ∈ s.head?, isDigitIn base c = false

theorem span_append {p : Char → Bool} (hds : ∀ c ∈ ds, p c = true)
    (stops : ∀ c ∈ rest.head?, p c = false) : (ds ++ rest).span p = (ds, rest) := by
  rw [List.span_eq_takeWhile_dropWhile, List.takeWhile_append_of_pos hds,
    List.dropWhile_append_of_pos hds]
  cases rest with
  | nil => simp
  | cons c rest =>
    have hc : p c = false := stops c rfl
    rw [List.takeWhile_cons_of_neg (by simp [hc]), List.dropWhile_cons_of_neg (by simp [hc]),
      List.append_nil]

/-- Blanks are skipped up to a word. -/
theorem dropWhile_word (blank : ∀ c ∈ lead, isSpace c = true) (some_ : ds ≠ [])
    (solid : ∀ c ∈ ds, isSpace c = false) : (lead ++ ds ++ rest).dropWhile isSpace = ds ++ rest := by
  obtain ⟨d, tail, hd⟩ := List.exists_cons_of_ne_nil some_
  have hspace : isSpace d = false := solid d (by simp [hd])
  rw [List.append_assoc, List.dropWhile_append_of_pos blank, hd, List.cons_append,
    List.dropWhile_cons_of_neg (by simp [hspace])]

theorem digits_solid (hex : ∀ c ∈ ds, isDigitIn 16 c = true) : ∀ c ∈ ds, isSpace c = false :=
  fun c hc => (digit_plain (hex c hc)).1

theorem takeSign_plain {s : List Char} (h : ∀ c ∈ s.head?, c ≠ '-' ∧ c ≠ '+') :
    takeSign s = (false, s) := by
  unfold takeSign
  split
  · exact absurd rfl (h '-' rfl).1
  · exact absurd rfl (h '+' rfl).2
  · rfl

theorem takeSign_digits (some_ : ds ≠ []) (hex : ∀ c ∈ ds, isDigitIn 16 c = true) :
    takeSign (ds ++ rest) = (false, ds ++ rest) := by
  obtain ⟨d, tail, hd⟩ := List.exists_cons_of_ne_nil some_
  have hplain := digit_plain (hex d (by simp [hd]))
  apply takeSign_plain
  intro c hc
  rw [hd] at hc
  cases hc
  exact ⟨hplain.2.1, hplain.2.2.1⟩

theorem scanDigits_plain {s : List Char} (plain : base = 16 → hexBegun s = false) :
    scanDigits base s = s.span (isDigitIn base) := by
  rw [scanDigits, if_neg]
  rintro ⟨hex, begun⟩
  rw [plain hex] at begun
  cases begun

/-- Without a sign and a prefix, a run of digits is the number it spells. -/
theorem scanField_digits {beyond : List Char} (some_ : ds ≠ [])
    (digits : ∀ c ∈ ds, isDigitIn base c = true) (hex : ∀ c ∈ ds, isDigitIn 16 c = true)
    (plain : base = 16 → hexBegun (ds ++ rest) = false) (stops : Stops base rest) :
    scanField base (ds ++ rest) beyond =
      .got (unsignedOf false (digitsValue base ds)) (rest ++ beyond) := by
  obtain ⟨d, tail, hd⟩ := List.exists_cons_of_ne_nil some_
  unfold scanField
  rw [takeSign_digits some_ hex]
  dsimp only
  rw [scanDigits_plain plain, span_append digits stops, hd]

theorem takeBase_ten (s : List Char) : takeBase 10 s = (10, s) := by
  unfold takeBase
  split <;> rfl

/-- There is no `0x` when the second character is no `x`. -/
theorem hexBegun_second {s : List Char} (second : ∀ c ∈ s.tail.head?, c ≠ 'x' ∧ c ≠ 'X') :
    hexBegun s = false := by
  unfold hexBegun
  split
  · rename_i x _
    have hx := second x rfl
    simp [hx.1, hx.2]
  · rfl

theorem second_digit (some_ : ds ≠ []) (hex : ∀ c ∈ ds, isDigitIn 16 c = true)
    (after : ∀ c ∈ rest.head?, c ≠ 'x' ∧ c ≠ 'X') :
    ∀ c ∈ (ds ++ rest).tail.head?, c ≠ 'x' ∧ c ≠ 'X' := by
  obtain ⟨d, tail, hd⟩ := List.exists_cons_of_ne_nil some_
  rw [hd, List.cons_append, List.tail_cons]
  cases tail with
  | nil => exact after
  | cons t tail =>
    intro c hc
    cases hc
    exact (digit_plain (hex t (by simp [hd]))).2.2.2

theorem digitsValue_append (ds : List Char) (c : Char) :
    digitsValue base (ds ++ [c]) = digitsValue base ds * base + digitOf c := by
  simp [digitsValue]

theorem digitOf_digitChar : ∀ n < 16, digitOf n.digitChar = n := by decide

/-- The digits of a number in a base up to sixteen spell it. -/
theorem toDigits_spec (some_ : 1 < base) (hex : base ≤ 16) (n : Nat) :
    (∀ c ∈ Nat.toDigits base n, isDigitIn base c = true) ∧
      digitsValue base (Nat.toDigits base n) = n := by
  induction n using Nat.strong_induction_on with
  | h n ih =>
    rw [Nat.toDigits_eq_if some_]
    by_cases hn : n < base
    · rw [if_pos hn]
      have hd := digitOf_digitChar n (by omega)
      constructor
      · intro c hc
        rw [List.mem_singleton.mp hc, isDigitIn, hd]
        exact decide_eq_true hn
      · simp [digitsValue, hd]
    · rw [if_neg hn]
      obtain ⟨hdigits, hvalue⟩ := ih (n / base) (Nat.div_lt_self (by omega) some_)
      have hlast : n % base < base := Nat.mod_lt _ (by omega)
      have hd := digitOf_digitChar (n % base) (by omega)
      constructor
      · intro c hc
        rcases List.mem_append.mp hc with hc | hc
        · exact hdigits c hc
        · rw [List.mem_singleton.mp hc, isDigitIn, hd]
          exact decide_eq_true hlast
      · rw [digitsValue_append, hvalue, hd]
        exact Nat.div_add_mod' n base

/-- `%u` of `printf` is read back as the number it shows. -/
theorem toDigits_decimal (n : Nat) :
    (∀ c ∈ Nat.toDigits 10 n, isDigitIn 10 c = true) ∧ digitsValue 10 (Nat.toDigits 10 n) = n :=
  toDigits_spec (by decide) (by decide) n

/-- `%u` skips blanks and reads all digits. -/
theorem scanUnsigned_decimal (blank : ∀ c ∈ lead, isSpace c = true) (some_ : ds ≠ [])
    (digits : ∀ c ∈ ds, isDigitIn 10 c = true) (stops : Stops 10 rest) :
    scanUnsigned 10 none (lead ++ ds ++ rest) = .got (unsignedOf false (digitsValue 10 ds)) rest := by
  obtain ⟨d, tail, hd⟩ := List.exists_cons_of_ne_nil some_
  have hex : ∀ c ∈ ds, isDigitIn 16 c = true := fun c hc => digit_hex (digits c hc)
  have hfield : scanField 10 (ds ++ rest) [] = .got _ (rest ++ []) :=
    scanField_digits some_ digits hex (fun h => by cases h) stops
  unfold scanUnsigned
  rw [dropWhile_word blank some_ (digits_solid hex)]
  rw [List.append_nil] at hfield
  rw [← hfield, hd]
  rfl

/-- `%x` with a width skips blanks and reads a run of digits of that width. -/
theorem scanUnsigned_hex (blank : ∀ c ∈ lead, isSpace c = true) (some_ : ds ≠ [])
    (digits : ∀ c ∈ ds, isDigitIn 16 c = true) :
    scanUnsigned 16 (some ds.length) (lead ++ ds ++ rest) =
      .got (unsignedOf false (digitsValue 16 ds)) rest := by
  obtain ⟨d, tail, hd⟩ := List.exists_cons_of_ne_nil some_
  have hfield : scanField 16 (ds ++ []) rest = .got _ ([] ++ rest) :=
    scanField_digits some_ digits digits
      (fun _ => hexBegun_second (second_digit some_ digits (by intro c hc; cases hc)))
      (by intro c hc; cases hc)
  rw [List.append_nil, List.nil_append] at hfield
  unfold scanUnsigned
  rw [dropWhile_word blank some_ (digits_solid digits), ← hfield]
  have hcons : ds ++ rest = d :: (tail ++ rest) := by rw [hd]; rfl
  rw [hcons]
  dsimp only
  rw [← hcons, List.take_left, List.drop_left]

/-- `%llx` skips blanks and reads hexadecimal digits up to something else. -/
theorem scanHex_number (blank : ∀ c ∈ lead, isSpace c = true) (some_ : ds ≠ [])
    (hex : ∀ c ∈ ds, isDigitIn 16 c = true) (fits : digitsValue 16 ds < 2 ^ 64)
    (after : ∀ c ∈ rest.head?, isDigitIn 16 c = false ∧ c ≠ 'x' ∧ c ≠ 'X') :
    scanHex (lead ++ ds ++ rest) = .got (BitVec.ofNat 64 (digitsValue 16 ds)) rest := by
  obtain ⟨d, tail, hd⟩ := List.exists_cons_of_ne_nil some_
  have hplain : hexBegun (ds ++ rest) = false :=
    hexBegun_second (second_digit some_ hex fun c hc => (after c hc).2)
  have hspan : (ds ++ rest).span (isDigitIn 16) = (ds, rest) :=
    span_append hex fun c hc => (after c hc).1
  unfold scanHex
  rw [dropWhile_word blank some_ (digits_solid hex), hd, List.cons_append]
  dsimp only
  rw [← List.cons_append, ← hd, takeSign_digits some_ hex]
  dsimp only
  rw [scanDigits_plain fun _ => hplain, hspan, hd]
  dsimp only
  rw [← hd, unsignedOf_nat fits]

/-- `%llx` reads hexadecimal digits up to a `-`. -/
theorem scanHex_digits (some_ : ds ≠ []) (hex : ∀ c ∈ ds, isDigitIn 16 c = true)
    (fits : digitsValue 16 ds < 2 ^ 64) :
    scanHex (ds ++ '-' :: rest) = .got (BitVec.ofNat 64 (digitsValue 16 ds)) ('-' :: rest) := by
  have hdash : ∀ c ∈ ('-' :: rest).head?, isDigitIn 16 c = false ∧ c ≠ 'x' ∧ c ≠ 'X' := by
    intro c hc
    cases hc
    decide
  have h := scanHex_number (by simp : ∀ c ∈ ([] : List Char), isSpace c = true) some_ hex fits hdash
  rwa [List.nil_append] at h

end Conversions

/-- `%s`. -/
def scanWord (s : List Char) : Scan (List Char) :=
  match s.dropWhile isSpace with
  | [] => .eof
  | s => let (t, rest) := s.span (fun c => !isSpace c); .got t rest

/-- A literal character of the format. -/
def scanLit (c : Char) : List Char → Scan Unit
  | [] => .eof
  | d :: s => if d = c then .got () s else .mismatch (d :: s)

/-- `fgets` of at most `n - 1` characters: what is stored and what is left;
`none` at the end of the file. -/
def fgets (n : Nat) : List Char → Option (List Char × List Char)
  | [] => none
  | s =>
    let line := match s.span (· ≠ '\n') with
      | (l, []) => l
      | (l, nl :: _) => l ++ [nl]
    let got := line.take (n - 1)
    some (got, s.drop got.length)

/-- `%s` skips blanks and reads up to the next one. -/
theorem scanWord_token {lead token rest : List Char} (blank : ∀ c ∈ lead, isSpace c = true)
    (some_ : token ≠ []) (solid : ∀ c ∈ token, isSpace c = false)
    (stops : ∀ c ∈ rest.head?, isSpace c = true) :
    scanWord (lead ++ token ++ rest) = .got token rest := by
  obtain ⟨d, tail, hd⟩ := List.exists_cons_of_ne_nil some_
  have hspan : (token ++ rest).span (fun c => !isSpace c) = (token, rest) := by
    apply span_append
    · intro c hc
      simp [solid c hc]
    · intro c hc
      simp [stops c hc]
  unfold scanWord
  rw [dropWhile_word blank some_ solid]
  have hcons : token ++ rest = d :: (tail ++ rest) := by rw [hd]; rfl
  rw [hcons]
  dsimp only
  rw [← hcons, hspan]

/-- `fgets` stops behind a newline or where its buffer ends. -/
theorem fgets_eq {line : List Char} (one : '\n' ∉ line) (n : Nat) (rest : List Char) :
    fgets n (line ++ '\n' :: rest) = some ((line ++ ['\n']).take (n - 1),
      (line ++ '\n' :: rest).drop ((line ++ ['\n']).take (n - 1)).length) := by
  have hspan : (line ++ '\n' :: rest).span (· ≠ '\n') = (line, '\n' :: rest) := by
    apply span_append
    · intro c hc
      exact decide_eq_true fun he => one (he ▸ hc)
    · intro c hc
      cases hc
      decide
  unfold fgets
  split
  · rename_i he
    exact absurd he (by simp)
  · rw [hspan]

/-- `fgets` reads a line that fits, with its newline. -/
theorem fgets_line {n : Nat} {line rest : List Char} (one : '\n' ∉ line) (fits : line.length + 1 < n) :
    fgets n (line ++ '\n' :: rest) = some (line ++ ['\n'], rest) := by
  have hall : (line ++ ['\n']).take (n - 1) = line ++ ['\n'] := by
    apply List.take_of_length_le
    rw [List.length_append, List.length_singleton]
    omega
  have hdrop : (line ++ '\n' :: rest).drop (line ++ ['\n']).length = rest := by
    rw [show line ++ '\n' :: rest = (line ++ ['\n']) ++ rest by simp, List.drop_left]
  rw [fgets_eq one, hall, hdrop]

example : strtoll "0x401000" = 0x401000 := by decide

example : strtoll "-1" = 0xffffffffffffffff := by decide

end UnixProgramming.Lib
