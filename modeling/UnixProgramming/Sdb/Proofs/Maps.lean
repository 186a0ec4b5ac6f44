import UnixProgramming.Lib.Scan
import UnixProgramming.Sdb.Commands

namespace UnixProgramming.Sdb.Proofs
open Lib

/-! ## The kernel's text -/

/-- The permissions of a mapping. -/
structure Perms where
  read : Bool
  write : Bool
  exec : Bool
  shared : Bool

def Perms.letters (p : Perms) : List Char :=
  [if p.read then 'r' else '-', if p.write then 'w' else '-', if p.exec then 'x' else '-',
    if p.shared then 's' else 'p']

/-- A mapping; `pad` blanks stand before its path, and a newline in it is written otherwise. -/
structure Mapping where
  begin_ : Word
  end_ : Word
  perms : Perms
  offset : Word
  major : Nat
  minor : Nat
  inode : Nat
  pad : Nat
  path : List Char
  one : '\n' ∉ path

/-- `%x` of at least `width` digits. -/
def hexPad (width n : Nat) : List Char :=
  List.replicate (width - (Nat.toDigits 16 n).length) '0' ++ Nat.toDigits 16 n

/-- The widths of the addresses and of the numbers of a device, which depend on the kernel. -/
structure Widths where
  addr : Nat
  dev : Nat

/-- A line from its offset on. -/
def Mapping.behind (k : Widths) (m : Mapping) : List Char :=
  hexPad 8 m.offset.toNat ++ ' ' ::
    (hexPad k.dev m.major ++ ':' :: (hexPad k.dev m.minor ++ ' ' ::
      (Nat.toDigits 10 m.inode ++ ' ' :: (List.replicate m.pad ' ' ++ m.path))))

/-- A line from its permissions on. -/
def Mapping.granted (k : Widths) (m : Mapping) : List Char :=
  m.perms.letters ++ ' ' :: m.behind k

def Mapping.text (k : Widths) (m : Mapping) : List Char :=
  hexPad k.addr m.begin_.toNat ++ '-' :: (hexPad k.addr m.end_.toNat ++ ' ' :: m.granted k)

/-- `/proc/pid/maps`. -/
def mapsText (k : Widths) (ms : List Mapping) : List Char :=
  ms.flatMap fun m => m.text k ++ ['\n']

/-- `%*[ \t]` takes these. -/
def isBlank (c : Char) : Bool := c = ' ' || c = '\t'

/-- The path as `fgets` meets it. -/
def Mapping.shown (m : Mapping) : List Char := m.path.dropWhile isBlank

/-- What of the path does not fit into `program`. -/
def Mapping.tail (m : Mapping) : List Char := m.shown.drop 127

section Numbers
variable {c : Char} {ds : List Char}

theorem digitsValue_zeros (base n : Nat) (ds : List Char) :
    digitsValue base (List.replicate n '0' ++ ds) = digitsValue base ds := by
  induction n with
  | zero => rfl
  | succ n ih =>
    rw [List.replicate_succ, List.cons_append]
    simpa [digitsValue, digitOf] using ih

theorem hexPad_spec (width n : Nat) :
    hexPad width n ≠ [] ∧ (∀ c ∈ hexPad width n, isDigitIn 16 c = true) ∧
      digitsValue 16 (hexPad width n) = n := by
  obtain ⟨hdigits, hvalue⟩ := @toDigits_spec 16 (by omega) (by omega) n
  refine ⟨?_, ?_, ?_⟩
  · simp [hexPad, Nat.toDigits_ne_nil]
  · intro c hc
    rcases List.mem_append.mp hc with hc | hc
    · rw [List.eq_of_mem_replicate hc]
      decide
    · exact hdigits c hc
  · rw [hexPad, digitsValue_zeros, hvalue]

end Numbers

section Lines
variable {k : Widths} {m : Mapping} {ms : List Mapping} {lead t : List Char} {n : Word}

theorem mapsText_cons (k : Widths) (m : Mapping) (ms : List Mapping) :
    mapsText k (m :: ms) = hexPad k.addr m.begin_.toNat ++
      '-' :: (hexPad k.addr m.end_.toNat ++ ' ' :: (m.granted k ++ '\n' :: mapsText k ms)) := by
  simp [mapsText, Mapping.text]

theorem behind_line (k : Widths) (m : Mapping) (t : List Char) : m.behind k ++ t =
    hexPad 8 m.offset.toNat ++ ' ' :: ((hexPad k.dev m.major ++ ':' :: hexPad k.dev m.minor) ++
      ' ' :: (Nat.toDigits 10 m.inode ++ ' ' :: (List.replicate m.pad ' ' ++ (m.path ++ t)))) := by
  simp [Mapping.behind]

theorem letters_solid (p : Perms) : ∀ c ∈ p.letters, isSpace c = false := by
  obtain ⟨r, w, x, s⟩ := p
  intro c hc
  simp only [Perms.letters, List.mem_cons, List.not_mem_nil, or_false] at hc
  rcases hc with rfl | rfl | rfl | rfl
  · cases r <;> rfl
  · cases w <;> rfl
  · cases x <;> rfl
  · cases s <;> rfl

theorem hexPad_solid (width n : Nat) : ∀ c ∈ hexPad width n, isSpace c = false :=
  digits_solid (hexPad_spec width n).2.1

theorem cons_solid {c : Char} {word : List Char} (hc : isSpace c = false)
    (h : ∀ d ∈ word, isSpace d = false) : ∀ d ∈ c :: word, isSpace d = false := by
  intro d hd
  rcases List.mem_cons.mp hd with rfl | hd
  · exact hc
  · exact h d hd

/-- Two numbers with a sign between them are one word. -/
theorem pair_solid {c : Char} (hc : isSpace c = false) (width b e : Nat) :
    ∀ d ∈ hexPad width b ++ c :: hexPad width e, isSpace d = false := by
  intro d hd
  rcases List.mem_append.mp hd with hd | hd
  · exact hexPad_solid width b d hd
  · exact cons_solid hc (hexPad_solid width e) d hd

/-- `%llx` reads an address or an offset of the kernel. -/
theorem scanHex_pad (blank : AllSpace lead) (width : Nat) {c : Char}
    (after : isDigitIn 16 c = false ∧ c ≠ 'x' ∧ c ≠ 'X') :
    scanHex (lead ++ (hexPad width n.toNat ++ c :: t)) = .got n (c :: t) := by
  obtain ⟨some_, hex, value⟩ := hexPad_spec width n.toNat
  have fits : digitsValue 16 (hexPad width n.toNat) < 2 ^ 64 := by
    rw [value]
    exact n.isLt
  have stops : ∀ d ∈ (c :: t).head?, isDigitIn 16 d = false ∧ d ≠ 'x' ∧ d ≠ 'X' := by
    intro d hd
    cases hd
    exact after
  rw [← List.append_assoc, scanHex_number blank some_ hex fits stops, value, BitVec.ofNat_toNat,
    BitVec.setWidth_eq]

/-- `%s` reads up to a blank. -/
theorem scanWord_blank {word : List Char} (blank : AllSpace lead) (some_ : word ≠ [])
    (solid : ∀ c ∈ word, isSpace c = false) :
    scanWord (lead ++ (word ++ ' ' :: t)) = .got word (' ' :: t) := by
  have stops : ∀ c ∈ (' ' :: t).head?, isSpace c = true := by
    intro c hc
    cases hc
    decide
  rw [← List.append_assoc]
  exact scanWord_token blank some_ solid stops

/-- White space before the lines: `%llx` reads where the first mapping begins. -/
theorem scanHex_lines (blank : AllSpace lead) (k : Widths) (m : Mapping) (ms : List Mapping) :
    scanHex (lead ++ mapsText k (m :: ms)) =
    .got m.begin_ ('-' :: (hexPad k.addr m.end_.toNat ++
      ' ' :: (m.granted k ++ '\n' :: mapsText k ms))) := by
  rw [mapsText_cons]
  exact scanHex_pad blank k.addr (by decide)

/-- `%s` reads both addresses at once. -/
theorem scanWord_lines (blank : AllSpace lead) (k : Widths) (m : Mapping) (ms : List Mapping) :
    scanWord (lead ++ mapsText k (m :: ms)) =
    .got (hexPad k.addr m.begin_.toNat ++ '-' :: hexPad k.addr m.end_.toNat)
      (' ' :: (m.granted k ++ '\n' :: mapsText k ms)) := by
  have text : mapsText k (m :: ms) =
      (hexPad k.addr m.begin_.toNat ++ '-' :: hexPad k.addr m.end_.toNat) ++
        ' ' :: (m.granted k ++ '\n' :: mapsText k ms) := by
    rw [mapsText_cons]
    simp
  rw [text]
  exact scanWord_blank blank (by simp) (pair_solid (by decide) _ _ _)

theorem mapsText_nil (k : Widths) : mapsText k [] = [] := rfl

/-- The characters `%*[ \t]` takes end before a digit or a letter. -/
theorem dropWhile_blank {word : List Char} (some_ : word ≠ [])
    (solid : ∀ c ∈ word, isSpace c = false) :
    (' ' :: (word ++ t)).dropWhile isBlank = word ++ t := by
  obtain ⟨c, word, rfl⟩ := List.exists_cons_of_ne_nil some_
  have hc := solid c (by simp)
  have plain : isBlank c = false := by
    cases hb : isBlank c with
    | false => rfl
    | true =>
      rcases Bool.or_eq_true_iff.mp hb with he | he
      · rw [of_decide_eq_true he] at hc
        exact absurd hc (by decide)
      · rw [of_decide_eq_true he] at hc
        exact absurd hc (by decide)
  rw [List.dropWhile_cons_of_pos (by decide), List.cons_append,
    List.dropWhile_cons_of_neg (by simp [plain])]

theorem letters_ne_nil (p : Perms) : p.letters ≠ [] := by simp [Perms.letters]

/-- Two words and blanks. -/
theorem skipMaps_words {s s₁ s₂ word word' : List Char} (h : scanWord s = .got word s₁)
    (h' : scanWord s₁ = .got word' s₂) : skipMaps s = s₂.dropWhile isBlank := by
  unfold skipMaps
  rw [h]
  dsimp only
  rw [h']
  rfl

theorem granted_line (k : Widths) (m : Mapping) (t : List Char) :
    m.granted k ++ t = m.perms.letters ++ ' ' :: (m.behind k ++ t) := by
  simp [Mapping.granted]

theorem scanWord_granted (k : Widths) (m : Mapping) (t : List Char) :
    scanWord (' ' :: (m.granted k ++ t)) = .got m.perms.letters (' ' :: (m.behind k ++ t)) := by
  rw [granted_line]
  exact scanWord_blank blank_space (letters_ne_nil _) (letters_solid _)

theorem scanHex_behind (k : Widths) (m : Mapping) (t : List Char) :
    ∃ s, scanHex (' ' :: (m.behind k ++ t)) = .got m.offset s ∧
      skipMaps s = (m.path ++ t).dropWhile isBlank := by
  rw [behind_line]
  refine ⟨_, scanHex_pad blank_space 8 (by decide), ?_⟩
  have device : ∀ c ∈ hexPad k.dev m.major ++ ':' :: hexPad k.dev m.minor, isSpace c = false :=
    pair_solid (by decide) _ _ _
  have inode : ∀ c ∈ Nat.toDigits 10 m.inode, isSpace c = false :=
    digits_solid fun c hc => digit_hex ((toDigits_decimal m.inode).1 c hc)
  have first := scanWord_blank (t := Nat.toDigits 10 m.inode ++
    ' ' :: (List.replicate m.pad ' ' ++ (m.path ++ t))) blank_space (by simp) device
  have second := scanWord_blank (t := List.replicate m.pad ' ' ++ (m.path ++ t)) blank_space
    Nat.toDigits_ne_nil inode
  have padding : ∀ c ∈ List.replicate m.pad ' ', isBlank c = true := by
    intro c hc
    rw [List.eq_of_mem_replicate hc]
    decide
  refine (skipMaps_words first second).trans ?_
  rw [List.dropWhile_cons_of_pos (by decide), List.dropWhile_append_of_pos padding]

/-- `%*[ \t]` stops at the end of the line. -/
theorem dropWhile_line (s t : List Char) :
    (s ++ '\n' :: t).dropWhile isBlank = s.dropWhile isBlank ++ '\n' :: t := by
  induction s with
  | nil => rfl
  | cons c s ih =>
    cases hc : isBlank c with
    | false => simp [hc]
    | true => simpa [hc] using ih

theorem length_letters (p : Perms) : p.letters.length = 4 := rfl

theorem scanMaps_all {v : MapsVars} {lo hi off : Word} {s s₂ s₃ word s₄ s₅ : List Char}
    (begin_ : scanHex s = .got lo ('-' :: s₂)) (end_ : scanHex s₂ = .got hi s₃)
    (perm : scanWord s₃ = .got word s₄) (short : word.length < 8)
    (offset : scanHex s₄ = .got off s₅) : scanMaps v s = some (some
      ({ v with begin_ := lo, end_ := hi, perm := word, offset := off }, skipMaps s₅)) := by
  have fits : ¬8 ≤ word.length := by omega
  unfold scanMaps
  simp only [begin_, scanLit, if_true, end_, perm, if_neg fits, offset]

/-- A conversion of a whole line leaves the path. -/
theorem scanMaps_line (blank : AllSpace lead) (v : MapsVars) :
    scanMaps v (lead ++ mapsText k (m :: ms)) = some (some
      ({ v with begin_ := m.begin_, end_ := m.end_, perm := m.perms.letters, offset := m.offset },
        m.shown ++ '\n' :: mapsText k ms)) := by
  have begin_ := scanHex_lines blank k m ms
  have end_ := scanHex_pad (n := m.end_) (t := m.granted k ++ '\n' :: mapsText k ms) nil_space k.addr
    (c := ' ') (by decide)
  have perm := scanWord_granted k m ('\n' :: mapsText k ms)
  obtain ⟨s, offset, skipped⟩ := scanHex_behind k m ('\n' :: mapsText k ms)
  rw [dropWhile_line] at skipped
  rw [scanMaps_all begin_ end_ perm (by rw [length_letters]; omega) offset, skipped]
  rfl

end Lines

/-! ## The rounds of the loop -/

/-- The locals and the text after the body of the loop. -/
def afterLine (v : MapsVars) (s : List Char) : MapsVars × List Char :=
  let (program, s) := (fgets 128 s).getD (v.program, s)
  ({ v with
    perm := v.perm.take 3
    program := program.takeWhile fun c => c ≠ '\r' ∧ c ≠ '\n' }, s)

/-- The row the body of the loop prints. -/
def rowOf (v : MapsVars) : Out := .mapping v.begin_ v.end_ v.perm v.offset v.program

/-- The rows that are printed up to the end of the text. -/
inductive Rounds : MapsVars → List Char → List Out → Prop
  | done {v s} (eof : scanMaps v s = none) : Rounds v s []
  | round {v s u t rows} (scanned : scanMaps v s = some (some (u, t)))
      (rest : Rounds (afterLine u t).1 (afterLine u t).2 rows) :
      Rounds v s (rowOf (afterLine u t).1 :: rows)

/-- `fscanf` by the conversion it stops at: what it has stored, and the text behind it. -/
inductive Converted (v : MapsVars) (s : List Char) : MapsVars → List Char → Prop
  | begin_ {t} (stop : (scanHex s).Fails t) : Converted v s v t
  | dash {lo s₁ t} (begin_ : scanHex s = .got lo s₁) (stop : (scanLit '-' s₁).Fails t) :
      Converted v s { v with begin_ := lo } t
  | end_ {lo s₂ t} (begin_ : scanHex s = .got lo ('-' :: s₂)) (stop : (scanHex s₂).Fails t) :
      Converted v s { v with begin_ := lo } t
  | perm {lo s₂ hi s₃ t} (begin_ : scanHex s = .got lo ('-' :: s₂)) (end_ : scanHex s₂ = .got hi s₃)
      (stop : (scanWord s₃).Fails t) : Converted v s { v with begin_ := lo, end_ := hi } t
  | offset {lo s₂ hi s₃ word s₄ t} (begin_ : scanHex s = .got lo ('-' :: s₂))
      (end_ : scanHex s₂ = .got hi s₃) (perm : scanWord s₃ = .got word s₄) (short : word.length < 8)
      (stop : (scanHex s₄).Fails t) :
      Converted v s { v with begin_ := lo, end_ := hi, perm := word } t
  | all {lo s₂ hi s₃ word s₄ off s₅} (begin_ : scanHex s = .got lo ('-' :: s₂))
      (end_ : scanHex s₂ = .got hi s₃) (perm : scanWord s₃ = .got word s₄) (short : word.length < 8)
      (offset : scanHex s₄ = .got off s₅) : Converted v s
        { v with begin_ := lo, end_ := hi, perm := word, offset := off } (skipMaps s₅)

section Loop
variable {σ : Type} {v u : MapsVars} {s t : List Char}

theorem scanMaps_none : scanMaps v s = none ↔ AllSpace s := by
  rw [← scanHex_eof]
  unfold scanMaps
  cases scanHex s with
  | eof => simp
  | mismatch r => simp
  | got lo s₁ =>
    constructor
    · intro h
      dsimp only at h
      repeat' split at h
      all_goals cases h
    · intro h
      cases h

theorem skipMaps_suffix (s : List Char) : skipMaps s <:+ s := by
  unfold skipMaps
  have first := scanWord_suffix s
  split
  · rename_i word s₁ h
    rw [h] at first
    have second := scanWord_suffix s₁
    split
    · rename_i h'
      rw [h'] at second
      exact (List.dropWhile_suffix _).trans (second.trans first)
    · rename_i h'
      rw [h'] at second
      exact second.trans first
    · exact List.nil_suffix
  · rename_i h
    rw [h] at first
    exact first
  · exact List.nil_suffix

theorem scanLit_suffix (c : Char) (s : List Char) : (scanLit c s).rest <:+ s := by
  unfold scanLit
  split
  · exact List.nil_suffix
  · split
    · exact List.suffix_cons _ _
    · exact List.suffix_rfl

theorem scanLit_got {c : Char} {x : Unit} {r : List Char} (h : scanLit c s = .got x r) :
    s = c :: r := by
  unfold scanLit at h
  split at h
  · cases h
  · split at h
    · cases h
      subst_vars
      rfl
    · cases h

theorem scanMaps_converted (h : scanMaps v s = some (some (u, t))) : Converted v s u t := by
  unfold scanMaps at h
  cases hb : scanHex s with
  | eof => simp [hb] at h
  | mismatch r =>
    simp only [hb] at h
    cases h
    exact .begin_ (hb ▸ fails_mismatch _)
  | got lo s₁ =>
    cases hd : scanLit '-' s₁ with
    | eof =>
      simp only [hb, hd] at h
      cases h
      exact .dash hb (hd ▸ fails_eof)
    | mismatch r =>
      simp only [hb, hd] at h
      cases h
      exact .dash hb (hd ▸ fails_mismatch _)
    | got x s₂ =>
      have hs₁ := scanLit_got hd
      subst hs₁
      cases he : scanHex s₂ with
      | eof =>
        simp only [hb, hd, he] at h
        cases h
        exact .end_ hb (he ▸ fails_eof)
      | mismatch r =>
        simp only [hb, hd, he] at h
        cases h
        exact .end_ hb (he ▸ fails_mismatch _)
      | got hi s₃ =>
        cases hp : scanWord s₃ with
        | eof =>
          simp only [hb, hd, he, hp] at h
          cases h
          exact .perm hb he (hp ▸ fails_eof)
        | mismatch r =>
          simp only [hb, hd, he, hp] at h
          cases h
          exact .perm hb he (hp ▸ fails_mismatch _)
        | got perm s₄ =>
          by_cases short : 8 ≤ perm.length
          · simp [hb, hd, he, hp, short] at h
          · cases ho : scanHex s₄ with
            | eof =>
              simp only [hb, hd, he, hp, if_neg short, ho] at h
              cases h
              exact .offset hb he hp (by omega) (ho ▸ fails_eof)
            | mismatch r =>
              simp only [hb, hd, he, hp, if_neg short, ho] at h
              cases h
              exact .offset hb he hp (by omega) (ho ▸ fails_mismatch _)
            | got offset s₅ =>
              simp only [hb, hd, he, hp, if_neg short, ho] at h
              cases h
              exact .all hb he hp (by omega) ho

theorem scanHex_dash {n : Word} (h : scanHex s = .got n ('-' :: t)) : t <:+ s :=
  (List.suffix_cons _ _).trans (scanHex_linewise.left h)

theorem Converted.suffix (h : Converted v s u t) : t <:+ s := by
  cases h with
  | begin_ stop =>
    rw [stop.2]
    exact scanHex_suffix s
  | dash begin_ stop =>
    rw [stop.2]
    exact (scanLit_suffix _ _).trans (scanHex_linewise.left begin_)
  | end_ begin_ stop =>
    rw [stop.2]
    exact (scanHex_suffix _).trans (scanHex_dash begin_)
  | perm begin_ end_ stop =>
    rw [stop.2]
    exact (scanWord_suffix _).trans ((scanHex_linewise.left end_).trans (scanHex_dash begin_))
  | offset begin_ end_ perm _ stop =>
    have third := (scanWord_linewise.left perm).trans ((scanHex_linewise.left end_).trans (scanHex_dash begin_))
    rw [stop.2]
    exact (scanHex_suffix _).trans third
  | all begin_ end_ perm _ offset =>
    have third := (scanWord_linewise.left perm).trans ((scanHex_linewise.left end_).trans (scanHex_dash begin_))
    exact (skipMaps_suffix _).trans ((scanHex_linewise.left offset).trans third)

theorem afterLine_nil (v : MapsVars) : (afterLine v []).2 = [] := rfl

theorem afterLine_got {got rest : List Char} (v : MapsVars) (h : fgets 128 s = some (got, rest)) :
    (afterLine v s).2 = rest := by
  rw [afterLine, h]
  rfl

/-- Every round takes a character. -/
theorem round_shorter (h : scanMaps v s = some (some (u, t))) :
    (afterLine u t).2.length < s.length := by
  have some_ : s ≠ [] := by
    rintro rfl
    cases h
  have fits := (scanMaps_converted h).suffix.length_le
  cases hg : fgets 128 t with
  | none =>
    have ht : t = [] := by
      cases t with
      | nil => rfl
      | cons c t => cases hg
    rw [ht, afterLine_nil]
    exact List.length_pos_of_ne_nil some_
  | some r =>
    have shorter := fgets_shorter (by omega) hg
    rw [afterLine_got u hg]
    omega

theorem mapsLoop_round {n : Nat} (h : scanMaps v s = some (some (u, t))) (w : World σ) :
    mapsLoop (n + 1) v s w = mapsLoop n (afterLine u t).1 (afterLine u t).2
      { w with out := rowOf (afterLine u t).1 :: w.out } := by
  rw [mapsLoop, h]
  rfl

theorem loop_of_rounds {n : Nat} {rows : List Out} (h : Rounds v s rows) (w : World σ)
    (fuel : s.length < n) : mapsLoop n v s w = .ok () { w with out := rows.reverse ++ w.out } := by
  induction h generalizing n w with
  | done eof =>
    obtain ⟨n, rfl⟩ := Nat.exists_eq_succ_of_ne_zero (by omega : n ≠ 0)
    rw [mapsLoop, eof]
    rfl
  | round scanned _ ih =>
    have shorter := round_shorter scanned
    obtain ⟨n, rfl⟩ := Nat.exists_eq_succ_of_ne_zero (by omega : n ≠ 0)
    rw [mapsLoop_round scanned, ih _ (by omega)]
    simp

theorem rounds_of_loop {n : Nat} {w w' : World σ} (fuel : s.length < n)
    (h : mapsLoop n v s w = .ok () w') :
    ∃ rows, Rounds v s rows ∧ w' = { w with out := rows.reverse ++ w.out } := by
  induction n generalizing v s w with
  | zero => omega
  | succ n ih =>
    cases scanned : scanMaps v s with
    | none =>
      rw [mapsLoop, scanned] at h
      cases h
      exact ⟨[], .done scanned, rfl⟩
    | some r =>
      cases r with
      | none =>
        rw [mapsLoop, scanned] at h
        cases h
      | some r =>
        have shorter := round_shorter scanned
        rw [mapsLoop_round scanned] at h
        obtain ⟨rows, rounds, rfl⟩ := ih (by omega) h
        exact ⟨_, .round scanned rounds, by simp⟩

/-- The loop ends, having printed rows, just if there are rounds up to the end of the text. -/
theorem loop_iff {n : Nat} (w w' : World σ) (fuel : s.length < n) :
    mapsLoop n v s w = .ok () w' ↔
      ∃ rows, Rounds v s rows ∧ w' = { w with out := rows.reverse ++ w.out } := by
  constructor
  · exact rounds_of_loop fuel
  · rintro ⟨rows, rounds, rfl⟩
    exact loop_of_rounds rounds w fuel

end Loop

end UnixProgramming.Sdb.Proofs
