import Mathlib.Data.List.TakeWhile
import UnixProgramming.Lib.Text

namespace UnixProgramming.Lib

/-- White space and nothing else. -/
def AllSpace (s : List Char) : Prop := ∀ c ∈ s, isSpace c = true

instance (s : List Char) : Decidable (AllSpace s) :=
  decidable_of_iff (s.all isSpace = true) List.all_eq_true

/-- The same result with `t` left behind what is left. -/
def Scan.before {α : Type} (t : List Char) : Scan α → Scan α
  | .got a rest => .got a (rest ++ t)
  | .mismatch rest => .mismatch (rest ++ t)
  | .eof => .eof

/-- What a conversion leaves of its input, none of it at the end of the file. -/
def Scan.rest {α : Type} : Scan α → List Char
  | .got _ rest => rest
  | .mismatch rest => rest
  | .eof => []

/-- A conversion that finds nothing leaves `t`. -/
def Scan.Fails {α : Type} (c : Scan α) (t : List Char) : Prop := (∀ a r, c ≠ .got a r) ∧ t = c.rest

/-- A conversion that skips white space, and then stays on its line. -/
structure Linewise {α : Type} (conv : List Char → Scan α) : Prop where
  line : ∀ {s t}, ¬AllSpace s → conv (s ++ '\n' :: t) = (conv s).before ('\n' :: t)
  eof : ∀ {s}, conv s = .eof ↔ AllSpace s
  suffix : ∀ s, (conv s).rest <:+ s

section Blanks
variable {s t : List Char}

theorem dropWhile_space : s.dropWhile isSpace = [] ↔ AllSpace s := List.dropWhile_eq_nil_iff

theorem newline_space : AllSpace ['\n'] := by decide

theorem blank_space : AllSpace [' '] := by decide

theorem nil_space : AllSpace [] := by decide

theorem AllSpace.line (h : AllSpace s) : AllSpace (s ++ ['\n']) := by
  intro c hc
  rcases List.mem_append.mp hc with hc | hc
  · exact h c hc
  · exact newline_space c hc

theorem dropWhile_before (h : ¬AllSpace s) :
    ∃ c r, isSpace c = false ∧ s.dropWhile isSpace = c :: r ∧
      (s ++ t).dropWhile isSpace = c :: (r ++ t) := by
  have hne := mt dropWhile_space.mp h
  obtain ⟨c, r, hr⟩ := List.exists_cons_of_ne_nil hne
  refine ⟨c, r, ?_, hr, ?_⟩
  · have hc := List.head_dropWhile_not isSpace hne
    simpa [hr] using hc
  · rw [List.dropWhile_append, hr]
    simp

end Blanks

section Lines
variable {s t : List Char}

theorem takeSign_before (c : Char) (s t : List Char) :
    takeSign (c :: s ++ t) = ((takeSign (c :: s)).1, (takeSign (c :: s)).2 ++ t) := by
  by_cases hm : c = '-'
  · subst hm
    rfl
  · by_cases hp : c = '+'
    · subst hp
      rfl
    · have plain : ∀ r : List Char, ∀ d ∈ (c :: r).head?, d ≠ '-' ∧ d ≠ '+' := by
        intro r d hd
        cases hd
        exact ⟨hm, hp⟩
      rw [takeSign_plain (plain s), List.cons_append, takeSign_plain (plain (s ++ t))]

theorem span_line {p : Char → Bool} (hp : p '\n' = false) (s t : List Char) :
    (s ++ '\n' :: t).span p = ((s.span p).1, (s.span p).2 ++ '\n' :: t) := by
  rw [List.span_eq_takeWhile_dropWhile, List.span_eq_takeWhile_dropWhile]
  induction s with
  | nil => simp [hp]
  | cons c s ih =>
    cases hc : p c with
    | false => simp [hc]
    | true => simpa [hc] using ih

/-- A prefix is not begun on one line and ended on the next. -/
theorem hexBegun_line (s t : List Char) :
    hexBegun (s ++ '\n' :: t) = hexBegun s ∧
      (hexBegun s = true → (s ++ '\n' :: t).drop 2 = s.drop 2 ++ '\n' :: t) := by
  match s with
  | [] => exact ⟨rfl, nofun⟩
  | [a] =>
    have hnone : hexBegun [a] = false := by
      unfold hexBegun
      split
      · rename_i h
        cases h
      · rfl
    rw [hnone]
    exact ⟨hexBegun_second (by simp), nofun⟩
  | a :: b :: r =>
    refine ⟨?_, fun _ => rfl⟩
    by_cases ha : a = '0'
    · subst ha
      rfl
    · have hnone : ∀ r : List Char, hexBegun (a :: r) = false := by
        intro r
        unfold hexBegun
        split
        · rename_i h
          exact absurd (List.cons.inj h).1 ha
        · rfl
      rw [List.cons_append, hnone, hnone]

theorem scanDigits_line {base : Nat} (hbase : isDigitIn base '\n' = false) (s t : List Char) :
    scanDigits base (s ++ '\n' :: t) =
      ((scanDigits base s).1, (scanDigits base s).2 ++ '\n' :: t) := by
  obtain ⟨hbegun, hdrop⟩ := hexBegun_line s t
  unfold scanDigits
  rw [hbegun]
  split
  · rename_i h
    rw [hdrop h.2, span_line (by decide)]
  · exact span_line hbase s t

/-- `%llx` that finds something on a line has nothing to do with the next. -/
theorem scanHex_line (h : ¬AllSpace s) : scanHex (s ++ '\n' :: t) = (scanHex s).before ('\n' :: t) := by
  obtain ⟨c, r, _, hs, hst⟩ := dropWhile_before (t := '\n' :: t) h
  unfold scanHex
  rw [hs, hst]
  dsimp only
  rw [← List.cons_append, takeSign_before]
  dsimp only
  rw [scanDigits_line (by decide)]
  cases hspan : scanDigits 16 (takeSign (c :: r)).2 with
  | mk ds rest =>
    cases ds with
    | nil => rfl
    | cons d ds => rfl

theorem scanWord_line (h : ¬AllSpace s) :
    scanWord (s ++ '\n' :: t) = (scanWord s).before ('\n' :: t) := by
  obtain ⟨c, r, _, hs, hst⟩ := dropWhile_before (t := '\n' :: t) h
  unfold scanWord
  rw [hs, hst]
  dsimp only
  rw [← List.cons_append, span_line (p := fun c => !isSpace c) rfl]
  rfl

end Lines

section Rests
variable {s : List Char}

theorem fails_mismatch {α : Type} (s : List Char) : (Scan.mismatch s : Scan α).Fails s := by
  simp [Scan.Fails, Scan.rest]

theorem fails_eof {α : Type} : (Scan.eof : Scan α).Fails [] := by
  simp [Scan.Fails, Scan.rest]

theorem takeSign_suffix (s : List Char) : (takeSign s).2 <:+ s := by
  unfold takeSign
  split
  · exact List.suffix_cons _ _
  · exact List.suffix_cons _ _
  · exact List.suffix_rfl

theorem span_suffix (p : Char → Bool) (s : List Char) : (s.span p).2 <:+ s := by
  rw [List.span_eq_takeWhile_dropWhile]
  exact List.dropWhile_suffix p

theorem scanDigits_suffix (base : Nat) (s : List Char) : (scanDigits base s).2 <:+ s := by
  unfold scanDigits
  split
  · exact (span_suffix _ _).trans (List.drop_suffix 2 s)
  · exact span_suffix _ s

theorem scanHex_suffix (s : List Char) : (scanHex s).rest <:+ s := by
  unfold scanHex
  split
  · exact List.nil_suffix
  · have hdrop := List.dropWhile_suffix isSpace (l := s)
    have hsign := takeSign_suffix (s.dropWhile isSpace)
    have hdigits := scanDigits_suffix 16 (takeSign (s.dropWhile isSpace)).2
    have hall := hdigits.trans (hsign.trans hdrop)
    dsimp only
    split
    · rename_i hs
      rw [hs] at hall
      exact hall
    · rename_i hs
      rw [hs] at hall
      exact hall

theorem scanWord_suffix (s : List Char) : (scanWord s).rest <:+ s := by
  unfold scanWord
  split
  · exact List.nil_suffix
  · exact (span_suffix _ _).trans (List.dropWhile_suffix isSpace)

theorem scanHex_eof : scanHex s = .eof ↔ AllSpace s := by
  rw [← dropWhile_space]
  unfold scanHex
  split
  · rename_i hs
    simp [hs]
  · rename_i hne
    constructor
    · intro h
      dsimp only at h
      split at h <;> cases h
    · intro h
      exact absurd h (hne · )

theorem scanWord_eof : scanWord s = .eof ↔ AllSpace s := by
  rw [← dropWhile_space]
  unfold scanWord
  split
  · rename_i hs
    simp [hs]
  · rename_i hne
    constructor
    · intro h
      cases h
    · intro h
      exact absurd h (hne · )

theorem scanWord_got (h : ¬AllSpace s) : ∃ word, scanWord s = .got word (scanWord s).rest := by
  obtain ⟨c, r, _, hs, -⟩ := dropWhile_before (t := []) h
  unfold scanWord
  rw [hs]
  exact ⟨_, rfl⟩

theorem before_got {α : Type} {c : Scan α} {a : α} {r' t : List Char}
    (h : c.before t = .got a r') : ∃ r, c = .got a r ∧ r' = r ++ t := by
  cases c with
  | got b r =>
    cases h
    exact ⟨r, rfl, rfl⟩
  | mismatch r => cases h
  | eof => cases h

theorem scanHex_linewise : Linewise scanHex := ⟨scanHex_line, scanHex_eof, scanHex_suffix⟩

theorem scanWord_linewise : Linewise scanWord := ⟨scanWord_line, scanWord_eof, scanWord_suffix⟩

section Conversions
variable {α : Type} {conv : List Char → Scan α} {a : α} {r : List Char}

theorem Linewise.left (L : Linewise conv) (h : conv s = .got a r) : r <:+ s := by
  have hs := L.suffix s
  rwa [h] at hs

theorem Linewise.one (L : Linewise conv) (h : conv s = .got a r) (one : '\n' ∉ s) : '\n' ∉ r :=
  fun hn => one ((L.left h).mem hn)

theorem Linewise.some_ (L : Linewise conv) (h : conv s = .got a r) : ¬AllSpace s := by
  intro blank
  rw [L.eof.mpr blank] at h
  cases h

theorem Linewise.got (L : Linewise conv) (h : conv s = .got a r) (t : List Char) :
    conv (s ++ '\n' :: t) = .got a (r ++ '\n' :: t) := by
  rw [L.line (L.some_ h), h]
  rfl

/-- A conversion that fails on a line leaves the rest of the line and the next lines. -/
theorem Linewise.fails (L : Linewise conv) {t : List Char} (h : ¬AllSpace s)
    (fails : (conv (s ++ '\n' :: t)).Fails r) : r = (conv s).rest ++ '\n' :: t := by
  rw [fails.2, L.line h]
  cases hs : conv s with
  | got a r => rfl
  | mismatch r => rfl
  | eof => exact absurd (L.eof.mp hs) h

end Conversions

theorem scanWord_fails {r : List Char} (fails : (scanWord s).Fails r) : AllSpace s := by
  by_contra h
  obtain ⟨word, hw⟩ := scanWord_got h
  exact fails.1 _ _ hw

theorem scanLit_fails {c : Char} {r : List Char} (fails : (scanLit c s).Fails r) : r = s := by
  obtain ⟨stop, rest⟩ := fails
  unfold scanLit at stop rest
  split at rest
  · exact rest
  · split at rest
    · rename_i hc
      simp [hc] at stop
    · exact rest

/-- `fgets` takes the rest of a line as far as it fits, and what does not stays. -/
theorem fgets_rest (one : '\n' ∉ s) (n : Nat) (t : List Char) :
    ∃ got left, fgets n (s ++ '\n' :: t) = some (got, left) ∧
      (left = s.drop (n - 1) ++ '\n' :: t ∨ s.drop (n - 1) = [] ∧ left = t) := by
  refine ⟨_, _, fgets_eq one n t, ?_⟩
  rw [List.length_take, List.length_append, List.length_singleton]
  by_cases hfits : s.length + 1 ≤ n - 1
  · right
    constructor
    · exact List.drop_eq_nil_of_le (by omega)
    · have hline : s ++ '\n' :: t = (s ++ ['\n']) ++ t := by simp
      rw [Nat.min_eq_right hfits, hline]
      exact List.drop_left' (by simp)
  · left
    rw [Nat.min_eq_left (by omega), List.drop_append_of_le_length (by omega)]

theorem fgets_shorter {n : Nat} {got rest : List Char} (room : 1 < n)
    (h : fgets n s = some (got, rest)) : rest.length < s.length := by
  cases s with
  | nil => cases h
  | cons c s =>
    have taken : ∃ line, (c :: s).drop ((c :: line).take (n - 1)).length = rest := by
      unfold fgets at h
      injection h with h
      injection h with _ hr
      rw [List.span_eq_takeWhile_dropWhile] at hr
      by_cases hc : c = '\n'
      · subst hc
        exact ⟨_, hr⟩
      · rw [List.takeWhile_cons_of_pos (by simpa using hc)] at hr
        split at hr
        · rename_i he
          rw [← (Prod.mk.inj he).1] at hr
          exact ⟨_, hr⟩
        · rename_i he
          rw [← (Prod.mk.inj he).1] at hr
          exact ⟨_, hr⟩
    obtain ⟨line, hr⟩ := taken
    rw [← hr, List.length_drop, List.length_take, List.length_cons, List.length_cons]
    omega

end Rests

end UnixProgramming.Lib
