import UnixProgramming.Lib.Scan

namespace UnixProgramming.Lib

/-- The lines of a text, the last one with or without its newline. -/
def lineCount (s : List Char) : Nat := s.count '\n' + if s.getLast?.getD '\n' = '\n' then 0 else 1

/-- No line of the text is longer than `n`. -/
def LinesWithin (n : Nat) (s : List Char) : Prop := ∀ l, l <:+: s → '\n' ∉ l → l.length ≤ n

section Counting
variable {s t l : List Char} {n : Nat}

theorem lineCount_nil : lineCount [] = 0 := rfl

theorem lineCount_pos (some_ : s ≠ []) : 0 < lineCount s := by
  unfold lineCount
  split
  · next h =>
    rw [List.getLast?_eq_some_getLast some_, Option.getD_some] at h
    have hm : '\n' ∈ s := h ▸ List.getLast_mem some_
    have hcount := List.count_pos_iff.mpr hm
    omega
  · omega

theorem lineCount_suffix (h : t <:+ s) : lineCount t ≤ lineCount s := by
  obtain ⟨p, hp⟩ := h
  subst hp
  cases t with
  | nil => exact Nat.zero_le _
  | cons c t =>
    have hlast : (p ++ c :: t).getLast? = (c :: t).getLast? := by
      apply List.getLast?_append_of_ne_nil
      simp
    unfold lineCount
    rw [hlast, List.count_append]
    omega

theorem lineCount_line (l t : List Char) : lineCount (l ++ '\n' :: t) = l.count '\n' + 1 + lineCount t := by
  have hlast : (l ++ '\n' :: t).getLast?.getD '\n' = t.getLast?.getD '\n' := by
    rw [List.getLast?_append_of_ne_nil l (by simp)]
    cases t with
    | nil => rfl
    | cons c t => rfl
  unfold lineCount
  rw [hlast, List.count_append, List.count_cons_self]
  omega

theorem lineCount_length (s : List Char) : lineCount s ≤ s.length := by
  unfold lineCount
  split
  · exact List.count_le_length
  · next h =>
    cases hs : s.getLast? with
    | none => simp [hs] at h
    | some c =>
      rw [hs, Option.getD_some] at h
      obtain ⟨p, hp⟩ := List.getLast?_eq_some_iff.mp hs
      subst hp
      have hcount : p.count '\n' ≤ p.length := List.count_le_length
      rw [List.count_append, List.count_singleton, List.length_append, List.length_singleton]
      simp [h]
      exact hcount

theorem LinesWithin.suffix (within : LinesWithin n s) (h : t <:+ s) : LinesWithin n t :=
  fun l hl one => within l (hl.trans h.isInfix) one

theorem linesWithin_length (short : s.length ≤ n) : LinesWithin n s :=
  fun _ hl _ => hl.length_le.trans short

/-- `fgets` with room for a line takes just that away. -/
theorem fgets_within {size : Nat} (within : LinesWithin n s) (room : n + 1 < size) (some_ : s ≠ []) :
    ∃ got rest, fgets size s = some (got, rest) ∧ rest <:+ s ∧ lineCount rest + 1 ≤ lineCount s := by
  by_cases hm : '\n' ∈ s
  · obtain ⟨l, rest, hs, one⟩ := List.eq_append_cons_of_mem hm
    subst hs
    have hlen : l.length ≤ n := within l ⟨[], _, rfl⟩ one
    refine ⟨_, _, fgets_line one (by omega), ⟨l ++ ['\n'], by simp⟩, ?_⟩
    rw [lineCount_line]
    omega
  · have hlen : s.length ≤ n := within s List.infix_rfl hm
    have hpos := lineCount_pos some_
    have hspan : s.span (· ≠ '\n') = (s, []) := by
      have h : (s ++ []).span (· ≠ '\n') = (s, []) :=
        span_append (fun c hc => decide_eq_true fun he => hm (he ▸ hc)) (by simp)
      rwa [List.append_nil] at h
    refine ⟨s, [], ?_, List.nil_suffix, hpos⟩
    unfold fgets
    split
    · exact absurd rfl some_
    · rw [hspan]
      dsimp only
      rw [List.take_of_length_le (by omega), List.drop_length]

end Counting

section Suffixes
variable {s : List Char}

theorem scanField_suffix (base : Nat) (field beyond : List Char) :
    (scanField base field beyond).rest <:+ field ++ beyond := by
  have hsign := takeSign_suffix field
  have hall := (scanDigits_suffix base (takeSign field).2).trans hsign
  unfold scanField
  dsimp only
  split
  · rename_i hs
    rw [hs] at hall
    obtain ⟨p, hp⟩ := hall
    exact ⟨p, by rw [← hp]; simp [Scan.rest]⟩
  · rename_i hs
    rw [hs] at hall
    obtain ⟨p, hp⟩ := hall
    exact ⟨p, by rw [← hp]; simp [Scan.rest]⟩

theorem scanUnsigned_suffix (base : Nat) (width : Option Nat) (s : List Char) :
    (scanUnsigned base width s).rest <:+ s := by
  have hdrop := List.dropWhile_suffix isSpace (l := s)
  unfold scanUnsigned
  split
  · exact List.nil_suffix
  · cases width with
    | none =>
      have h := scanField_suffix base (s.dropWhile isSpace) []
      rw [List.append_nil] at h
      exact h.trans hdrop
    | some k =>
      have h := scanField_suffix base ((s.dropWhile isSpace).take k) ((s.dropWhile isSpace).drop k)
      rw [List.take_append_drop] at h
      exact h.trans hdrop

theorem scanLit_suffix (c : Char) (s : List Char) : (scanLit c s).rest <:+ s := by
  cases s with
  | nil => exact List.nil_suffix
  | cons d s =>
    rw [scanLit]
    split
    · exact List.suffix_cons d s
    · exact List.suffix_rfl

/-- A word stands on one line. -/
theorem scanWord_within {n : Nat} {word rest : List Char} (within : LinesWithin n s)
    (h : scanWord s = .got word rest) : word.length ≤ n := by
  have hdrop := List.dropWhile_suffix isSpace (l := s)
  unfold scanWord at h
  split at h
  · cases h
  · rw [List.span_eq_takeWhile_dropWhile] at h
    cases h
    apply within
    · exact (List.takeWhile_prefix _).isInfix.trans hdrop.isInfix
    · intro hm
      have hc := List.mem_takeWhile_imp hm
      simp [isSpace] at hc

end Suffixes

end UnixProgramming.Lib
