import UnixProgramming.Sdb.Proofs.Maps
import UnixProgramming.Sdb.Proofs.Registers

namespace UnixProgramming.Sdb.Proofs
open Lib

/-! ## Where the rounds begin -/

/-- A round begins behind what is left of a line, `rem`, and before the lines of `ms`. -/
def At (k : Widths) (rem : List Char) (ms : List Mapping) (s : List Char) : Prop :=
  ('\n' ∉ rem ∧ s = rem ++ '\n' :: mapsText k ms) ∨ (rem = [] ∧ s = mapsText k ms)

/-- `fscanf` stopped before the lines of `ms`. -/
def Before (k : Widths) (ms : List Mapping) (t : List Char) : Prop :=
  (∃ r, '\n' ∉ r ∧ t = r ++ '\n' :: mapsText k ms) ∨ (ms = [] ∧ t = [])

/-- The row that begins on `rem` and ends on the line of `m`: the values it stores, and what it
leaves of that line. The line is entered at the offset, or at one of the words behind it. -/
inductive Crosses (k : Widths) (rem : List Char) (m : Mapping) (lo hi : Word) (word : List Char) :
    Word → List Char → Prop
  | offset {s₂ s₃ s₄} (begin_ : scanHex rem = .got lo ('-' :: s₂)) (end_ : scanHex s₂ = .got hi s₃)
      (perm : scanWord s₃ = .got word s₄) (short : word.length < 8) (beyond : AllSpace s₄) :
      Crosses k rem m lo hi word m.begin_ (m.behind k)
  | device {s₂ s₃ s₄ off s₅} (begin_ : scanHex rem = .got lo ('-' :: s₂))
      (end_ : scanHex s₂ = .got hi s₃) (perm : scanWord s₃ = .got word s₄) (short : word.length < 8)
      (offset : scanHex s₄ = .got off s₅) (beyond : AllSpace s₅) :
      Crosses k rem m lo hi word off (m.behind k)
  | inode {s₂ s₃ s₄ off s₅ device s₆} (begin_ : scanHex rem = .got lo ('-' :: s₂))
      (end_ : scanHex s₂ = .got hi s₃) (perm : scanWord s₃ = .got word s₄) (short : word.length < 8)
      (offset : scanHex s₄ = .got off s₅) (device : scanWord s₅ = .got device s₆)
      (beyond : AllSpace s₆) : Crosses k rem m lo hi word off (m.granted k)

/-- What begins a row of some mapping. -/
def Lawful (perm : List Char) : Prop := ∃ p : Perms, perm = p.letters.take 3

/-- The row of a mapping. -/
def Mapping.Shown (m : Mapping) (o : Out) : Prop :=
  ∃ program, o = .mapping m.begin_ m.end_ (m.perms.letters.take 3) m.offset program

/-- From behind `rem`, every line is read on its own from its start, or what is left of the line
before spells the row of the line that it takes in. -/
def InStep (k : Widths) : List Char → List Mapping → Prop
  | rem, [] => AllSpace rem
  | rem, m :: ms =>
    (AllSpace rem ∧ InStep k m.tail ms) ∨
      ∃ word left, Crosses k rem m m.begin_ m.end_ word m.offset left ∧
        word.take 3 = m.perms.letters.take 3 ∧ InStep k (left.drop 127) ms

section Positions
variable {k : Widths} {ms : List Mapping} {m : Mapping} {rem r s t : List Char} {u v : MapsVars}

/-- No hexadecimal digit is one of the first two permissions. -/
theorem hex_unlawful {c d : Char} (word : List Char)
    (h : isDigitIn 16 c = true ∨ isDigitIn 16 d = true) :
    ¬Lawful ((c :: d :: word).take 3) := by
  rintro ⟨p, hp⟩
  obtain ⟨pr, pw, px, ps⟩ := p
  injection hp with hc hp
  injection hp with hd _
  subst hc hd
  revert h
  cases pr <;> cases pw <;> cases px <;> cases ps <;> decide

theorem end_unlawful (width n : Nat) : ¬Lawful (('-' :: hexPad width n).take 3) := by
  obtain ⟨some_, hex, -⟩ := hexPad_spec width n
  obtain ⟨d, ds, hd⟩ := List.exists_cons_of_ne_nil some_
  rw [hd]
  exact hex_unlawful ds (.inr (hex d (by simp [hd])))

theorem addresses_unlawful (width b e : Nat) :
    ¬Lawful ((hexPad width b ++ '-' :: hexPad width e).take 3) := by
  obtain ⟨some_, hex, -⟩ := hexPad_spec width b
  obtain ⟨c, cs, hc⟩ := List.exists_cons_of_ne_nil some_
  have digit := hex c (by simp [hc])
  rw [hc]
  cases cs with
  | nil => exact hex_unlawful (hexPad width e) (.inl digit)
  | cons d ds => exact hex_unlawful (ds ++ '-' :: hexPad width e) (.inl digit)

theorem over_line (k : Widths) (ms : List Mapping) (r : List Char) :
    r ++ '\n' :: mapsText k ms = (r ++ ['\n']) ++ mapsText k ms := by simp

/-- A conversion at a position: on the line, or over its end and at the first mapping. -/
theorem Linewise.at_ {α : Type} {conv : List Char → Scan α} (L : Linewise conv) {value : Mapping → α}
    {left : Mapping → List Mapping → List Char} {a : α}
    (first : ∀ {lead}, AllSpace lead → ∀ m ms,
      conv (lead ++ mapsText k (m :: ms)) = .got (value m) (left m ms))
    (h : conv (r ++ '\n' :: mapsText k ms) = .got a s) :
    (∃ r', conv r = .got a r' ∧ s = r' ++ '\n' :: mapsText k ms) ∨
      ∃ m ms', ms = m :: ms' ∧ AllSpace r ∧ a = value m ∧ s = left m ms' := by
  by_cases blank : AllSpace r
  · right
    rw [over_line] at h
    cases ms with
    | nil =>
      rw [mapsText_nil, List.append_nil, L.eof.mpr blank.line] at h
      cases h
    | cons m ms =>
      rw [first blank.line] at h
      cases h
      exact ⟨m, ms, rfl, blank, rfl, rfl⟩
  · left
    rw [L.line blank] at h
    exact before_got h

theorem scanHex_at {n : Word} (h : scanHex (r ++ '\n' :: mapsText k ms) = .got n s) :
    (∃ r', scanHex r = .got n r' ∧ s = r' ++ '\n' :: mapsText k ms) ∨
      ∃ m ms', ms = m :: ms' ∧ AllSpace r ∧ n = m.begin_ ∧
        s = '-' :: (hexPad k.addr m.end_.toNat ++ ' ' ::
          (m.granted k ++ '\n' :: mapsText k ms')) :=
  Linewise.at_ scanHex_linewise (fun blank => scanHex_lines blank k) h

theorem scanWord_at {word : List Char} (h : scanWord (r ++ '\n' :: mapsText k ms) = .got word s) :
    (∃ r', scanWord r = .got word r' ∧ s = r' ++ '\n' :: mapsText k ms) ∨
      ∃ m ms', ms = m :: ms' ∧ AllSpace r ∧
        word = hexPad k.addr m.begin_.toNat ++ '-' :: hexPad k.addr m.end_.toNat ∧
        s = ' ' :: (m.granted k ++ '\n' :: mapsText k ms') :=
  Linewise.at_ scanWord_linewise (fun blank => scanWord_lines blank k) h

/-- A `%llx` that fails at a position has not passed the end of the line. -/
theorem hex_before (one : '\n' ∉ r) (fails : (scanHex (r ++ '\n' :: mapsText k ms)).Fails t) :
    Before k ms t := by
  by_cases blank : AllSpace r
  · rw [over_line] at fails
    cases ms with
    | nil =>
      right
      rw [mapsText_nil, List.append_nil, scanHex_eof.mpr blank.line] at fails
      exact ⟨rfl, fails.2⟩
    | cons m ms =>
      rw [scanHex_lines blank.line] at fails
      exact absurd rfl (fails.1 _ _)
  · left
    exact ⟨_, fun hn => one ((scanHex_suffix r).mem hn), scanHex_linewise.fails blank fails⟩

theorem word_before (fails : (scanWord (r ++ '\n' :: mapsText k ms)).Fails t) : Before k ms t := by
  have blank := scanWord_fails fails
  cases ms with
  | nil =>
    right
    rw [scanWord_eof.mpr blank] at fails
    exact ⟨rfl, fails.2⟩
  | cons m ms =>
    have space : AllSpace r := fun c hc => blank c (by simp [hc])
    rw [over_line, scanWord_lines space.line] at fails
    exact absurd rfl (fails.1 _ _)

theorem behind_solid (k : Widths) (m : Mapping) (t : List Char) :
    (' ' :: (m.behind k ++ t)).dropWhile isBlank = m.behind k ++ t := by
  rw [behind_line]
  exact dropWhile_blank (hexPad_spec _ _).1 (hexPad_solid _ _)

theorem granted_solid (k : Widths) (m : Mapping) (t : List Char) :
    (' ' :: (m.granted k ++ t)).dropWhile isBlank = m.granted k ++ t := by
  rw [granted_line]
  exact dropWhile_blank (letters_ne_nil _) (letters_solid _)

/-- Both words are on a new line. -/
theorem skipMaps_device (blank : AllSpace r) :
    skipMaps (r ++ '\n' :: mapsText k (m :: ms)) = m.behind k ++ '\n' :: mapsText k ms := by
  have first := scanWord_lines blank.line k m ms
  rw [over_line, skipMaps_words first (scanWord_granted k m _), behind_solid]

/-- The second word is on a new line. -/
theorem skipMaps_inode {device r' : List Char} (h : scanWord r = .got device r')
    (blank : AllSpace r') :
    skipMaps (r ++ '\n' :: mapsText k (m :: ms)) = m.granted k ++ '\n' :: mapsText k ms := by
  have second := scanWord_lines blank.line k m ms
  rw [← over_line] at second
  rw [skipMaps_words (scanWord_linewise.got h _) second, granted_solid]

theorem skipMaps_eof (blank : AllSpace s) : skipMaps s = [] := by
  unfold skipMaps
  rw [scanWord_eof.mpr blank]

theorem skipMaps_word_eof {word : List Char} (h : scanWord s = .got word t) (blank : AllSpace t) :
    skipMaps s = [] := by
  unfold skipMaps
  rw [h]
  dsimp only
  rw [scanWord_eof.mpr blank]

theorem skipMaps_at (k : Widths) (ms : List Mapping) (one : '\n' ∉ r) :
    Before k ms (skipMaps (r ++ '\n' :: mapsText k ms)) ∨ ∃ m ms', ms = m :: ms' ∧
      (AllSpace r ∨ ∃ device r', scanWord r = .got device r' ∧ AllSpace r') := by
  by_cases blank : AllSpace r
  · cases ms with
    | nil => exact .inl (.inr ⟨rfl, skipMaps_eof blank.line⟩)
    | cons m ms => exact .inr ⟨m, ms, rfl, .inl blank⟩
  · obtain ⟨device, hd⟩ := scanWord_got blank
    have first := scanWord_linewise.got hd (mapsText k ms)
    by_cases beyond : AllSpace (scanWord r).rest
    · cases ms with
      | nil => exact .inl (.inr ⟨rfl, skipMaps_word_eof first beyond.line⟩)
      | cons m ms => exact .inr ⟨m, ms, rfl, .inr ⟨device, _, hd, beyond⟩⟩
    · obtain ⟨inode, hi⟩ := scanWord_got beyond
      have second := scanWord_linewise.got hi (mapsText k ms)
      have left_ := ((List.dropWhile_suffix isBlank).trans (scanWord_linewise.left hi)).trans
        (scanWord_linewise.left hd)
      have skipped := skipMaps_words first second
      rw [dropWhile_line] at skipped
      exact .inl (.inl ⟨_, fun hn => one (left_.mem hn), skipped⟩)

theorem scanWord_end (width n : Nat) (t : List Char) :
    scanWord ('-' :: (hexPad width n ++ ' ' :: t)) = .got ('-' :: hexPad width n) (' ' :: t) := by
  exact scanWord_blank nil_space (by simp) (cons_solid (by decide) (hexPad_solid width n))

/-- If the end or the permissions are read over the end of the line, no mapping has them. -/
theorem perm_at {hi : Word} {s₃ s₄ word : List Char}
    (end_ : scanHex (r ++ '\n' :: mapsText k ms) = .got hi s₃) (perm : scanWord s₃ = .got word s₄) :
    (∃ r₃ r₄, scanHex r = .got hi r₃ ∧ scanWord r₃ = .got word r₄ ∧
      s₄ = r₄ ++ '\n' :: mapsText k ms) ∨ ¬Lawful (word.take 3) := by
  rcases scanHex_at end_ with ⟨r₃, hr₃, rfl⟩ | ⟨m, ms', rfl, _, _, rfl⟩
  · rcases scanWord_at perm with ⟨r₄, hr₄, rfl⟩ | ⟨m, ms', rfl, _, rfl, _⟩
    · exact .inl ⟨r₃, r₄, hr₃, hr₄, rfl⟩
    · exact .inr (addresses_unlawful _ _ _)
  · rw [scanWord_end] at perm
    cases perm
    exact .inr (end_unlawful _ _)

/-- The rest of the row when the offset is on a new line. -/
theorem skipMaps_offset (k : Widths) (m : Mapping) (t : List Char) :
    skipMaps ('-' :: (hexPad k.addr m.end_.toNat ++ ' ' :: (m.granted k ++ t))) = m.behind k ++ t := by
  rw [skipMaps_words (scanWord_end _ _ _) (scanWord_granted k m t), behind_solid]

/-- The sign behind the first address is on its line. -/
theorem dash_at {lo : Word} (one : '\n' ∉ rem) (some_ : ¬AllSpace rem)
    (h : scanHex (rem ++ '\n' :: mapsText k ms) = .got lo ('-' :: s)) :
    ∃ r, scanHex rem = .got lo ('-' :: r) ∧ s = r ++ '\n' :: mapsText k ms ∧ '\n' ∉ r := by
  rw [scanHex_line some_] at h
  obtain ⟨r, hr, he⟩ := before_got h
  cases r with
  | nil =>
    injection he with he _
    exact absurd he (by decide)
  | cons c r =>
    injection he with hc he
    subst hc
    exact ⟨r, hr, he, fun hn => one ((scanHex_dash hr).mem hn)⟩

/-- A row that begins on a line and not on the next: it ends on the same line, or its permissions
are those of no mapping, or it ends on the line of the next mapping. -/
theorem Converted.ends (h : Converted v (rem ++ '\n' :: mapsText k ms) u t) (one : '\n' ∉ rem)
    (some_ : ¬AllSpace rem) :
    Before k ms t ∨ ¬Lawful (u.perm.take 3) ∨ ∃ m ms' left, ms = m :: ms' ∧
      Crosses k rem m u.begin_ u.end_ u.perm u.offset left ∧ t = left ++ '\n' :: mapsText k ms' := by
  cases h with
  | begin_ stop => exact .inl (hex_before one stop)
  | dash begin_ stop =>
    rw [scanHex_line some_] at begin_
    obtain ⟨r, hr, rfl⟩ := before_got begin_
    exact .inl (.inl ⟨r, scanHex_linewise.one hr one, scanLit_fails stop⟩)
  | end_ begin_ stop =>
    obtain ⟨r, hr, rfl, one₂⟩ := dash_at one some_ begin_
    exact .inl (hex_before one₂ stop)
  | perm begin_ end_ stop =>
    obtain ⟨r, hr, rfl, one₂⟩ := dash_at one some_ begin_
    rcases scanHex_at end_ with ⟨r₃, _, rfl⟩ | ⟨m, ms', rfl, _, _, rfl⟩
    · exact .inl (word_before stop)
    · exact absurd (scanWord_fails stop '-' (by simp)) (by decide)
  | offset begin_ end_ perm short stop =>
    obtain ⟨r, hr, rfl, one₂⟩ := dash_at one some_ begin_
    rcases perm_at end_ perm with ⟨r₃, r₄, hr₃, hr₄, rfl⟩ | unlawful
    · have one₄ := scanWord_linewise.one hr₄ (scanHex_linewise.one hr₃ one₂)
      exact .inl (hex_before one₄ stop)
    · exact .inr (.inl unlawful)
  | all begin_ end_ perm short offset =>
    obtain ⟨r, hr, rfl, one₂⟩ := dash_at one some_ begin_
    rcases perm_at end_ perm with ⟨r₃, r₄, hr₃, hr₄, rfl⟩ | unlawful
    · have one₄ := scanWord_linewise.one hr₄ (scanHex_linewise.one hr₃ one₂)
      rcases scanHex_at offset with ⟨r₅, hr₅, rfl⟩ | ⟨m, ms', rfl, blank, rfl, rfl⟩
      · have one₅ := scanHex_linewise.one hr₅ one₄
        rcases skipMaps_at k ms one₅ with before | ⟨m, ms', rfl, blank | ⟨device, r₆, hr₆, blank⟩⟩
        · exact .inl before
        · exact .inr (.inr ⟨m, ms', _, rfl, .device hr hr₃ hr₄ short hr₅ blank,
            skipMaps_device blank⟩)
        · exact .inr (.inr ⟨m, ms', _, rfl, .inode hr hr₃ hr₄ short hr₅ hr₆ blank,
            skipMaps_inode hr₆ blank⟩)
      · exact .inr (.inr ⟨m, ms', _, rfl, .offset hr hr₃ hr₄ short blank,
          skipMaps_offset k m _⟩)
    · exact .inr (.inl unlawful)

theorem Crosses.scanned {lo hi off : Word} {word left : List Char}
    (h : Crosses k rem m lo hi word off left) (v : MapsVars) (ms : List Mapping) :
    scanMaps v (rem ++ '\n' :: mapsText k (m :: ms)) = some (some
      ({ v with begin_ := lo, end_ := hi, perm := word, offset := off },
        left ++ '\n' :: mapsText k ms)) := by
  cases h with
  | offset begin_ end_ perm short beyond =>
    have offset := scanHex_lines beyond.line k m ms
    rw [← over_line] at offset
    rw [scanMaps_all (scanHex_linewise.got begin_ _) (scanHex_linewise.got end_ _)
      (scanWord_linewise.got perm _) short offset, skipMaps_offset]
  | device begin_ end_ perm short offset beyond =>
    rw [scanMaps_all (scanHex_linewise.got begin_ _) (scanHex_linewise.got end_ _)
      (scanWord_linewise.got perm _) short (scanHex_linewise.got offset _), skipMaps_device beyond]
  | inode begin_ end_ perm short offset device beyond =>
    rw [scanMaps_all (scanHex_linewise.got begin_ _) (scanHex_linewise.got end_ _)
      (scanWord_linewise.got perm _) short (scanHex_linewise.got offset _),
      skipMaps_inode device beyond]

/-- The rest of a path that is the row of the next mapping but for the words `vmmap` skips. -/
example : Crosses ⟨8, 2⟩ ['4', '-', '5', ' ', 'r', '-', 'x', 'p', ' ', '0']
    ⟨4, 5, ⟨true, false, true, false⟩, 0, 8, 1, 7, 0, ['/'], by decide⟩ 4 5 ['r', '-', 'x', 'p'] 0
    "00000000 08:01 7 /".toList :=
  .device rfl rfl rfl (by decide) rfl (by decide)

theorem solid_one {word : List Char} (h : ∀ c ∈ word, isSpace c = false) : '\n' ∉ word := by
  intro hn
  exact absurd (h _ hn) (by decide)

theorem shown_one (m : Mapping) : '\n' ∉ m.shown :=
  fun hn => m.one ((List.dropWhile_suffix isBlank).mem hn)

theorem behind_one (k : Widths) (m : Mapping) : '\n' ∉ m.behind k := by
  have number := fun width n => solid_one (hexPad_solid width n)
  have inode : '\n' ∉ Nat.toDigits 10 m.inode :=
    solid_one (digits_solid fun c hc => digit_hex ((toDigits_decimal m.inode).1 c hc))
  simp [Mapping.behind, number, inode, m.one]

theorem granted_one (k : Widths) (m : Mapping) : '\n' ∉ m.granted k := by
  simp [Mapping.granted, solid_one (letters_solid m.perms), behind_one]

theorem Crosses.one {lo hi off : Word} {word left : List Char}
    (h : Crosses k rem m lo hi word off left) : '\n' ∉ left := by
  cases h with
  | offset => exact behind_one k m
  | device => exact behind_one k m
  | inode => exact granted_one k m

theorem Crosses.some_ {lo hi off : Word} {word left : List Char}
    (h : Crosses k rem m lo hi word off left) : ¬AllSpace rem := by
  intro blank
  have none_ := scanHex_eof.mpr blank
  cases h with
  | offset begin_ => simp [none_] at begin_
  | device begin_ => simp [none_] at begin_
  | inode begin_ => simp [none_] at begin_

/-- The first 127 characters of the rest of a line go into `program`. -/
theorem at_line (one : '\n' ∉ r) (u : MapsVars) :
    At k (r.drop 127) ms (afterLine u (r ++ '\n' :: mapsText k ms)).2 := by
  obtain ⟨got, left, h, hleft⟩ := fgets_rest one 128 (mapsText k ms)
  rw [afterLine_got u h]
  rcases hleft with rfl | ⟨hdrop, rfl⟩
  · exact .inl ⟨fun hn => one ((List.drop_suffix _ _).mem hn), rfl⟩
  · exact .inr ⟨hdrop, rfl⟩

theorem Before.at_ (h : Before k ms t) (u : MapsVars) : ∃ r, At k r ms (afterLine u t).2 := by
  rcases h with ⟨r, one, rfl⟩ | ⟨rfl, rfl⟩
  · exact ⟨_, at_line one u⟩
  · exact ⟨[], .inr ⟨rfl, rfl⟩⟩

theorem At.blank (h : At k rem ms s) (blank : AllSpace rem) :
    ∃ lead, AllSpace lead ∧ s = lead ++ mapsText k ms := by
  rcases h with ⟨_, rfl⟩ | ⟨rfl, rfl⟩
  · exact ⟨rem ++ ['\n'], blank.line, over_line k ms rem⟩
  · exact ⟨[], nil_space, rfl⟩

theorem At.line (h : At k rem ms s) (some_ : ¬AllSpace rem) :
    '\n' ∉ rem ∧ s = rem ++ '\n' :: mapsText k ms := by
  rcases h with h | ⟨rfl, _⟩
  · exact h
  · exact absurd nil_space some_

theorem lines_space : AllSpace (mapsText k ms) ↔ ms = [] := by
  constructor
  · intro h
    cases ms with
    | nil => rfl
    | cons m ms =>
      have first := scanHex_lines nil_space k m ms
      rw [List.nil_append, scanHex_eof.mpr h] at first
      cases first
  · rintro rfl
    exact nil_space

/-- The loop ends behind the last line. -/
theorem At.done (h : At k rem ms s) : scanMaps v s = none ↔ AllSpace rem ∧ ms = [] := by
  rw [scanMaps_none]
  constructor
  · intro hs
    rcases h with ⟨_, rfl⟩ | ⟨rfl, rfl⟩
    · have lines : AllSpace (mapsText k ms) := fun c hc => hs c (by simp [hc])
      exact ⟨fun c hc => hs c (by simp [hc]), lines_space.mp lines⟩
    · exact ⟨nil_space, lines_space.mp hs⟩
  · rintro ⟨blank, rfl⟩
    obtain ⟨lead, hlead, rfl⟩ := h.blank blank
    rwa [mapsText_nil, List.append_nil]

/-- What a round does at a position. -/
theorem At.round (h : At k rem ms s) (scanned : scanMaps v s = some (some (u, t))) :
    (∃ m ms', ms = m :: ms' ∧ AllSpace rem ∧ m.Shown (rowOf (afterLine u t).1) ∧
      At k m.tail ms' (afterLine u t).2) ∨
    (∃ r, At k r ms (afterLine u t).2) ∧ ¬AllSpace rem ∨
    ¬Lawful (u.perm.take 3) ∨
    ∃ m ms' left, ms = m :: ms' ∧ Crosses k rem m u.begin_ u.end_ u.perm u.offset left ∧
      At k (left.drop 127) ms' (afterLine u t).2 := by
  by_cases blank : AllSpace rem
  · obtain ⟨lead, hlead, rfl⟩ := h.blank blank
    cases ms with
    | nil =>
      rw [h.done.mpr ⟨blank, rfl⟩] at scanned
      cases scanned
    | cons m ms =>
      rw [scanMaps_line hlead] at scanned
      cases scanned
      exact .inl ⟨m, ms, rfl, blank, ⟨_, rfl⟩, at_line (shown_one m) _⟩
  · obtain ⟨one, rfl⟩ := h.line blank
    rcases (scanMaps_converted scanned).ends one blank with before | unlawful |
      ⟨m, ms', left, rfl, crosses, rfl⟩
    · exact .inr (.inl ⟨before.at_ u, blank⟩)
    · exact .inr (.inr (.inl unlawful))
    · exact .inr (.inr (.inr ⟨m, ms', left, rfl, crosses, at_line crosses.one u⟩))

theorem Mapping.Shown.lawful {o : Out} (h : m.Shown o) (same : o = rowOf (afterLine u t).1) :
    Lawful (u.perm.take 3) := by
  obtain ⟨program, rfl⟩ := h
  injection same with _ _ hperm
  exact ⟨m.perms, hperm.symm⟩

theorem Crosses.shown {left : List Char}
    (h : Crosses k rem m u.begin_ u.end_ u.perm u.offset left)
    (first : m.Shown (rowOf (afterLine u t).1)) :
    Crosses k rem m m.begin_ m.end_ u.perm m.offset left ∧
      u.perm.take 3 = m.perms.letters.take 3 := by
  obtain ⟨program, hrow⟩ := first
  injection hrow with hlo hhi hperm hoff
  replace hlo : u.begin_ = m.begin_ := hlo
  replace hhi : u.end_ = m.end_ := hhi
  replace hoff : u.offset = m.offset := hoff
  rw [hlo, hhi, hoff] at h
  exact ⟨h, hperm⟩

/-- Every line that is still to be read gives a row, also where lines run together. -/
theorem rounds_count {rows : List Out} (h : Rounds v s rows) (at_ : At k rem ms s)
    (shown : ∀ o ∈ rows, ∃ m : Mapping, m.Shown o) : ms.length ≤ rows.length := by
  induction h generalizing rem ms with
  | done eof =>
    rw [(at_.done.mp eof).2]
    exact Nat.zero_le _
  | round scanned _ ih =>
    have rest := fun o ho => shown o (List.mem_cons_of_mem _ ho)
    obtain ⟨n, hn⟩ := shown _ List.mem_cons_self
    rcases at_.round scanned with ⟨m, ms', rfl, _, _, next⟩ | ⟨⟨r, next⟩, _⟩ | unlawful |
      ⟨m, ms', left, rfl, _, next⟩
    · exact Nat.succ_le_succ (ih next rest)
    · exact (ih next rest).trans (Nat.le_succ _)
    · exact absurd (hn.lawful rfl) unlawful
    · exact Nat.succ_le_succ (ih next rest)

theorem shown_every {rows : List Out} (h : List.Forall₂ Mapping.Shown ms rows) :
    ∀ o ∈ rows, ∃ m : Mapping, m.Shown o := by
  induction h with
  | nil => simp
  | cons first _ ih =>
    intro o ho
    rcases List.mem_cons.mp ho with rfl | ho
    · exact ⟨_, first⟩
    · exact ih o ho

/-- One row for each line: the lines were read in step. -/
theorem inStep_of_rounds {rows : List Out} (h : Rounds v s rows) (at_ : At k rem ms s)
    (shown : List.Forall₂ Mapping.Shown ms rows) : InStep k rem ms := by
  induction h generalizing rem ms with
  | done eof =>
    obtain ⟨blank, rfl⟩ := at_.done.mp eof
    exact blank
  | round scanned rounds ih =>
    cases shown with
    | cons first rest =>
      rcases at_.round scanned with ⟨m, ms', he, blank, _, next⟩ | ⟨⟨r, next⟩, _⟩ | unlawful |
        ⟨m, ms', left, he, crosses, next⟩
      · cases he
        exact .inl ⟨blank, ih next rest⟩
      · -- a row within the line is one too many
        have count := rounds_count rounds next (shown_every rest)
        have same := rest.length_eq
        rw [List.length_cons] at count
        omega
      · exact absurd (first.lawful rfl) unlawful
      · cases he
        obtain ⟨crosses, hperm⟩ := crosses.shown first
        exact .inr ⟨_, _, crosses, hperm, ih next rest⟩

/-- Lines that are read in step give one row each. -/
theorem rounds_of_inStep (h : InStep k rem ms) (at_ : At k rem ms s) :
    ∃ rows, Rounds v s rows ∧ List.Forall₂ Mapping.Shown ms rows := by
  induction ms generalizing rem s v with
  | nil => exact ⟨[], .done (at_.done.mpr ⟨h, rfl⟩), .nil⟩
  | cons m ms ih =>
    rcases h with ⟨blank, h⟩ | ⟨word, left, crosses, hperm, h⟩
    · obtain ⟨lead, hlead, rfl⟩ := at_.blank blank
      obtain ⟨rows, rounds, shown⟩ := ih h (at_line (shown_one m) _)
      exact ⟨_, .round (scanMaps_line hlead v) rounds, .cons ⟨_, rfl⟩ shown⟩
    · obtain ⟨_, rfl⟩ := at_.line crosses.some_
      obtain ⟨rows, rounds, shown⟩ := ih h (at_line crosses.one _)
      exact ⟨_, .round (crosses.scanned v ms) rounds, .cons ⟨_, by rw [← hperm]; rfl⟩ shown⟩

/-- It is enough that every path fits, but for white space at its end. -/
theorem inStep_of_fits (fits : ∀ m ∈ ms, AllSpace m.tail) (blank : AllSpace rem) :
    InStep k rem ms := by
  induction ms generalizing rem with
  | nil => exact blank
  | cons m ms ih =>
    have rest := fun m' hm => fits m' (List.mem_cons_of_mem m hm)
    exact .inl ⟨blank, ih rest (fits m List.mem_cons_self)⟩

end Positions

section Command
variable {σ : Type} {H : Host σ} {w w' : World σ} {word text : String}

theorem vmmap_run (running : w.dbg.stat = .running) (found : lookup H.list word = some .vmmap)
    (argv : List String) (maps : H.maps w.dbg.pid w.os = some text) :
    handle H (.line (word :: argv)) w = .ok () w' ↔
      ∃ rows, Rounds (H.stackMaps w.os) text.toList rows ∧
        w' = { w with out := rows.reverse ++ w.out } := by
  have fuel : text.toList.length < text.length + 1 := by
    rw [String.length_toList]
    exact Nat.lt_succ_self _
  rw [← loop_iff w w' fuel, handle, exec_found H 2 found]
  simp [Builtin.exec, cmdVmmap, bind, EStateM.bind, dbg, running, ask, maps, deref, pure,
    EStateM.pure]

/-- The rows that were printed are those of the rounds. -/
theorem vmmap_rounds {rows : List Out} (running : w.dbg.stat = .running)
    (found : lookup H.list word = some .vmmap) (argv : List String)
    (maps : H.maps w.dbg.pid w.os = some text) (ran : handle H (.line (word :: argv)) w = .ok () w')
    (out : w'.out = rows.reverse ++ w.out) : Rounds (H.stackMaps w.os) text.toList rows := by
  obtain ⟨rows', rounds, rfl⟩ := (vmmap_run running found argv maps).mp ran
  have same : rows' = rows := List.reverse_injective (List.append_cancel_right out)
  rwa [same] at rounds

end Command

/-- `vmmap` shows each mapping once, and in order, just if every path that does not fit leaves
nothing or the row of the next mapping. -/
theorem vmmap_rows {σ : Type} (H : Host σ) (w : World σ) (running : w.dbg.stat = .running)
    (word : String) (found : lookup H.list word = some .vmmap) (argv : List String) (k : Widths)
    (ms : List Mapping) (text : String) (maps : H.maps w.dbg.pid w.os = some text)
    (lines : text.toList = mapsText k ms) :
    (∃ (w' : World σ) (rows : List Out), handle H (.line (word :: argv)) w = .ok () w' ∧
      w'.out = rows.reverse ++ w.out ∧ List.Forall₂ Mapping.Shown ms rows) ↔ InStep k [] ms := by
  have start : At k [] ms text.toList := .inr ⟨rfl, lines⟩
  constructor
  · rintro ⟨w', rows, ran, out, shown⟩
    exact inStep_of_rounds (vmmap_rounds running found argv maps ran out) start shown
  · intro h
    obtain ⟨rows, rounds, shown⟩ := rounds_of_inStep (v := H.stackMaps w.os) h start
    exact ⟨_, rows, (vmmap_run running found argv maps).mpr ⟨rows, rounds, rfl⟩, rfl, shown⟩

/-- A program of `nop`s and what the kernel says of it. -/
def mapped (ms : List Mapping) : Fate Demo.Hidden :=
  .ready (Demo.entry 0x401000) ⟨String.ofList (mapsText ⟨8, 2⟩ ms), none⟩
    (Demo.code 0x401000 Demo.nops)

/-- The code of the program, mapped from `path`. -/
def codeMapping (path : List Char) (one : '\n' ∉ path) : Mapping :=
  ⟨0x400000, 0x402000, ⟨true, false, true, false⟩, 0, 8, 1, 7, 0, path, one⟩

def stackMapping : Mapping :=
  ⟨0x7ffe0000, 0x7fff0000, ⟨true, true, false, false⟩, 0, 0, 0, 0, 20, [], by simp⟩

theorem exists_mapped (ms : List Mapping)
    (h : (runAll (handle (Demo.host Demo.static)) (fun _ _ _ => true)
      [.line ["load", "demo"], .line ["start"]] (World.init (Demo.machine (mapped ms)))).any
        (fun w => checkStopped w fun c => c.hidden.maps = String.ofList (mapsText ⟨8, 2⟩ ms)) = true) :
    ∃ w : World (Machine Demo.Hidden),
      Reached (handle (Demo.host Demo.static)) (fun _ _ _ => True)
        (World.init (Demo.machine (mapped ms))) w ∧ w.dbg.stat = .running ∧
      (Demo.host Demo.static).maps w.dbg.pid w.os = some (String.ofList (mapsText ⟨8, 2⟩ ms)) := by
  obtain ⟨w, hw, hs⟩ := exists_run _ _ _ _ h
  obtain ⟨running, c, live, hc⟩ := checked_stopped hs
  refine ⟨w, hw, running, ?_⟩
  have hmaps : (Demo.host Demo.static).maps w.dbg.pid w.os =
      (w.os.child w.dbg.pid).map fun c => c.hidden.maps := rfl
  rw [hmaps, live.child, ← of_decide_eq_true hc]
  rfl

/-- A file and the stack. -/
theorem vmmap_rows_demo : ∃ (w w' : World (Machine Demo.Hidden)) (rows : List Out),
    w.dbg.stat = .running ∧ handle (Demo.host Demo.static) (.line ["m"]) w = .ok () w' ∧
    w'.out = rows.reverse ++ w.out ∧ List.Forall₂ Mapping.Shown
      [codeMapping ['/', 'a'] (by simp), stackMapping] rows := by
  obtain ⟨w, _, running, maps⟩ := exists_mapped
    [codeMapping ['/', 'a'] (by simp), stackMapping] (by decide +kernel)
  have fits : InStep ⟨8, 2⟩ [] [codeMapping ['/', 'a'] (by simp), stackMapping] := by
    apply inStep_of_fits
    · simp [codeMapping, stackMapping, Mapping.tail, Mapping.shown, isBlank, nil_space]
    · exact nil_space
  obtain ⟨w', rows, ran, out, shown⟩ := (vmmap_rows (Demo.host Demo.static) w running "m"
    (by decide) [] ⟨8, 2⟩ _ _ maps String.toList_ofList).mpr fits
  exact ⟨w, w', rows, running, ran, out, shown⟩

/-- A path of 130 characters: what does not fit is read as the next line. -/
def longPath : List Char := '/' :: List.replicate 129 'x'

theorem longPath_one : '\n' ∉ longPath := by decide

theorem vmmap_long_path : ∃ (w : World (Machine Demo.Hidden)) (text : String),
    Reached (handle (Demo.host Demo.static)) (fun _ _ _ => True)
      (World.init (Demo.machine (mapped [codeMapping longPath longPath_one]))) w ∧
    w.dbg.stat = .running ∧ (Demo.host Demo.static).maps w.dbg.pid w.os = some text ∧
    text.toList = mapsText ⟨8, 2⟩ [codeMapping longPath longPath_one] ∧
    ¬∃ (w' : World (Machine Demo.Hidden)) (rows : List Out),
      handle (Demo.host Demo.static) (.line ["vmmap"]) w = .ok () w' ∧
      w'.out = rows.reverse ++ w.out ∧
      List.Forall₂ Mapping.Shown [codeMapping longPath longPath_one] rows := by
  obtain ⟨w, hw, running, maps⟩ := exists_mapped [codeMapping longPath longPath_one]
    (by decide +kernel)
  refine ⟨w, _, hw, running, maps, String.toList_ofList, ?_⟩
  rintro ⟨w', rows, ran, out, shown⟩
  have rounds := vmmap_rounds running (lookup_name _ .vmmap) [] maps ran out
  rw [String.toList_ofList] at rounds
  rcases inStep_of_rounds rounds (.inr ⟨rfl, rfl⟩) shown with ⟨_, blank⟩ | ⟨_, _, crosses, _⟩
  · have tail : AllSpace (codeMapping longPath longPath_one).tail := blank
    exact absurd tail (by decide)
  · exact absurd nil_space crosses.some_

end UnixProgramming.Sdb.Proofs
