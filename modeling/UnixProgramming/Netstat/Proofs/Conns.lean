import UnixProgramming.Netstat.Main

namespace UnixProgramming.Netstat.Proofs
open Lib

/-- A socket as the kernel lists it; the words of an address are in memory order. -/
structure Record where
  localIp : List (BitVec 32)
  localPort : BitVec 16
  rmtIp : List (BitVec 32)
  rmtPort : BitVec 16
  inode : BitVec 32

/-- The pieces of a line. Each token stands with the blanks before it. -/
structure Line where
  lead : List Char
  slot : List Char
  gap : List Char
  localIp : List (List Char)
  localPort : List Char
  rmtGap : List Char
  rmtIp : List (List Char)
  rmtPort : List Char
  tokens : List (List Char × List Char)
  inodeGap : List Char
  inode : List Char
  rest : List Char

/-- The text of a line behind its slot. -/
def Line.tail (l : Line) : List Char :=
  l.gap ++ l.localIp.flatten ++ ':' :: (l.localPort ++
    (l.rmtGap ++ l.rmtIp.flatten ++ ':' :: (l.rmtPort ++
      (l.tokens.flatMap (fun t => t.1 ++ t.2) ++ (l.inodeGap ++ l.inode ++ (l.rest ++ ['\n']))))))

def Line.text (l : Line) : List Char := l.lead ++ l.slot ++ ':' :: l.tail

def Blanks (s : List Char) : Prop := ∀ c ∈ s, c = ' ' ∨ c = '\t'

instance (s : List Char) : Decidable (Blanks s) :=
  decidable_of_iff (s.all (fun c => c = ' ' ∨ c = '\t') = true) (by simp [Blanks])

/-- `ds` is the number `n` in the given base. -/
def Spells (base : Nat) (ds : List Char) (n : Nat) : Prop :=
  ds ≠ [] ∧ (∀ c ∈ ds, isDigitIn base c = true) ∧ digitsValue base ds = n

instance (base : Nat) (ds : List Char) (n : Nat) : Decidable (Spells base ds n) :=
  decidable_of_iff (ds ≠ [] ∧ ds.all (isDigitIn base) = true ∧ digitsValue base ds = n)
    (by simp [Spells])

/-- Eight hexadecimal digits for each word of an address. -/
def SpellsIp (type : ConnType) (ds : List (List Char)) (ip : List (BitVec 32)) : Prop :=
  ip.length = type.words ∧ List.Forall₂ (fun d w => d.length = 8 ∧ Spells 16 d w.toNat) ds ip

/-- One of the tokens that are skipped, with the blanks before it. -/
def Skipped (t : List Char × List Char) : Prop :=
  (Blanks t.1 ∧ t.1 ≠ []) ∧ t.2 ≠ [] ∧ (∀ c ∈ t.2, isSpace c = false) ∧ t.2.length < 512

/-- The line is the kernel's for the record. -/
structure Line.Shows (type : ConnType) (l : Line) (r : Record) : Prop where
  lead : Blanks l.lead
  slot : l.slot ≠ [] ∧ ∀ c ∈ l.slot, isDigitIn 10 c = true
  gap : Blanks l.gap
  localIp : SpellsIp type l.localIp r.localIp
  localPort : l.localPort.length = 4 ∧ Spells 16 l.localPort r.localPort.toNat
  rmtGap : Blanks l.rmtGap
  rmtIp : SpellsIp type l.rmtIp r.rmtIp
  rmtPort : l.rmtPort.length = 4 ∧ Spells 16 l.rmtPort r.rmtPort.toNat
  tokens : l.tokens.length = 6 ∧ ∀ t ∈ l.tokens, Skipped t
  inodeGap : Blanks l.inodeGap ∧ l.inodeGap ≠ []
  inode : Spells 10 l.inode r.inode.toNat
  rest : ('\n' ∉ l.rest ∧ l.rest.length < 511) ∧ Stops 10 l.rest

/-- What the list is to hold for a record. -/
def Record.conn (ntop : Bool → List Byte → List Char) (type : ConnType) (r : Record) : Conn where
  localIp := ntop type.v6 (r.localIp.flatMap fun w => (List.range 4).map (byteOf w))
  rmtIp := ntop type.v6 (r.rmtIp.flatMap fun w => (List.range 4).map (byteOf w))
  type := type.name
  localPort := r.localPort
  rmtPort := r.rmtPort
  inode := r.inode

section Conversions
variable {s rest lead ds : List Char} {n : Nat}

theorem Blanks.spaces (h : Blanks s) : ∀ c ∈ s, isSpace c = true := by
  intro c hc
  rcases h c hc with he | he
  · subst he
    rfl
  · subst he
    rfl

/-- Blanks followed by anything that starts with a blank or is one. -/
theorem Blanks.head (h : Blanks s) (some_ : s ≠ []) : ∀ c ∈ (s ++ rest).head?, isSpace c = true := by
  obtain ⟨b, tail, hs⟩ := List.exists_cons_of_ne_nil some_
  intro c hc
  rw [hs, List.cons_append] at hc
  cases hc
  exact h.spaces b (by simp [hs])

theorem scan_word (blank : Blanks lead) {w : BitVec 32} (len : ds.length = 8)
    (spells : Spells 16 ds w.toNat) :
    scanUnsigned 16 (some 8) (lead ++ ds ++ rest) = .got w rest := by
  obtain ⟨hne, hdigits, hvalue⟩ := spells
  rw [← len, scanUnsigned_hex blank.spaces hne hdigits, hvalue, unsignedOf_nat (by omega),
    BitVec.ofNat_toNat, BitVec.setWidth_eq]

theorem scanPort_digits (old : BitVec 32) {port : BitVec 16} (len : ds.length = 4)
    (spells : Spells 16 ds port.toNat) :
    scanPort old (':' :: (ds ++ rest)) = (port.setWidth 32, rest) := by
  obtain ⟨hne, hdigits, hvalue⟩ := spells
  have hblank : ∀ c ∈ ([] : List Char), isSpace c = true := by simp
  have hword : BitVec.ofNat 32 port.toNat = port.setWidth 32 := by
    apply BitVec.eq_of_toNat_eq
    simp
  have hscan : scanUnsigned 16 (some 4) (ds ++ rest) = .got (port.setWidth 32) rest := by
    have h : scanUnsigned 16 (some ds.length) ([] ++ ds ++ rest) = .got _ rest :=
      scanUnsigned_hex hblank hne hdigits
    rw [List.nil_append, len, hvalue, unsignedOf_nat (by omega), hword] at h
    exact h
  simp [scanPort, scanLit, hscan, scanInto]

/-- The loop over the words of an address stores them in order. -/
theorem scanAddr_words {words : List (BitVec 32)} {dss : List (List Char)}
    (spells : List.Forall₂ (fun d w => d.length = 8 ∧ Spells 16 d w.toNat) dss words)
    (blank : Blanks lead) (i : Nat) (ip : Nat → BitVec 32) (rest : List Char) :
    ∃ ip', scanAddr words.length i ip (lead ++ dss.flatten ++ rest) =
        (ip', if words = [] then lead ++ rest else rest) ∧
      (∀ j < i, ip' j = ip j) ∧ ∀ j (h : j < words.length), ip' (i + j) = words[j] := by
  induction spells generalizing i ip lead with
  | nil => exact ⟨ip, by simp [scanAddr], fun _ _ => rfl, fun j h => by simp at h⟩
  | @cons d w dss words hd spells ih =>
    have hnone : Blanks ([] : List Char) := by simp [Blanks]
    obtain ⟨ip', hran, hlow, hnew⟩ := ih hnone (i + 1) (fun j => if j = i then w else ip j)
    refine ⟨ip', ?_, ?_, ?_⟩
    · have htext : lead ++ (d :: dss).flatten ++ rest = lead ++ d ++ (dss.flatten ++ rest) := by
        simp
      rw [List.length_cons, scanAddr, htext, scan_word blank hd.1 hd.2]
      dsimp only [scanInto]
      rw [List.nil_append] at hran
      rw [hran]
      split <;> rfl
    · intro j hj
      rw [hlow j (by omega), if_neg (by omega)]
    · intro j hj
      cases j with
      | zero =>
        rw [Nat.add_zero, hlow i (by omega), if_pos rfl]
        rfl
      | succ j =>
        have h := hnew j (by simpa using hj)
        rw [show i + (j + 1) = i + 1 + j by omega, h]
        rfl

theorem skipWords_tokens {tokens : List (List Char × List Char)} (skipped : ∀ t ∈ tokens, Skipped t)
    (stops : ∀ c ∈ rest.head?, isSpace c = true) :
    skipWords tokens.length (tokens.flatMap (fun t => t.1 ++ t.2) ++ rest) = some rest := by
  induction tokens with
  | nil => rfl
  | cons t tokens ih =>
    obtain ⟨⟨hblank, _⟩, hne, hsolid, hfits⟩ := skipped t List.mem_cons_self
    have hrest : ∀ c ∈ (tokens.flatMap (fun t => t.1 ++ t.2) ++ rest).head?, isSpace c = true := by
      cases tokens with
      | nil => exact stops
      | cons u tokens =>
        obtain ⟨⟨hu, hune⟩, _⟩ := skipped u (by simp)
        simp only [List.flatMap_cons, List.append_assoc]
        exact hu.head hune
    have hscan := scanWord_token hblank.spaces hne hsolid hrest
    rw [List.length_cons, skipWords, List.flatMap_cons, List.append_assoc, hscan]
    dsimp only
    rw [if_neg (by omega)]
    exact ih fun u hu => skipped u (List.mem_cons_of_mem t hu)

end Conversions

section Lines
variable {ntop : Bool → List Byte → List Char} {type : ConnType} {l : Line} {r : Record}
  {s : List Char}

theorem scanSlot_line (shows : l.Shows type r) : scanSlot (l.text ++ s) = some (l.tail ++ s) := by
  have hstops : Stops 10 (':' :: (l.tail ++ s)) := by
    intro c hc
    cases hc
    decide
  have hscan := scanUnsigned_decimal shows.lead.spaces shows.slot.1 shows.slot.2 hstops
  have htext : l.text ++ s = l.lead ++ l.slot ++ ':' :: (l.tail ++ s) := by
    simp [Line.text]
  rw [htext, scanSlot, hscan]
  simp [scanLit]

theorem words_ne_nil {ip : List (BitVec 32)} (len : ip.length = type.words) : ip ≠ [] := by
  intro h
  rw [h] at len
  cases type <;> cases len

/-- The memory of an address that has been read. -/
theorem addrBytes_words {ip : List (BitVec 32)} {ip' : Nat → BitVec 32}
    (len : ip.length = type.words) (h : ∀ j (hj : j < ip.length), ip' (0 + j) = ip[j]) :
    addrBytes type.words ip' = ip.flatMap fun w => (List.range 4).map (byteOf w) := by
  have hip : ip = (List.range type.words).map ip' := by
    apply List.ext_getElem
    · simp [len]
    · intro j hj _
      have hj' := h j hj
      rw [Nat.zero_add] at hj'
      simp [hj']
  unfold addrBytes
  rw [hip, List.flatMap_map]

/-- Every variable is stored anew on each line, so nothing of the line before remains. -/
theorem scanConn_line (ntop : Bool → List Byte → List Char) (shows : l.Shows type r) (v : ConnVars) :
    ∃ v', scanConn type v (l.tail ++ s) = some (v', s) ∧ connOf ntop type v' = r.conn ntop type := by
  obtain ⟨llen, lspells⟩ := shows.localIp
  obtain ⟨rlen, rspells⟩ := shows.rmtIp
  obtain ⟨tlen, skipped⟩ := shows.tokens
  obtain ⟨⟨one, fits⟩, stops⟩ := shows.rest
  -- the text behind each conversion, the last one first
  let s₅ := l.rest ++ '\n' :: s
  let s₄ := l.inodeGap ++ l.inode ++ s₅
  let s₃ := l.tokens.flatMap (fun t => t.1 ++ t.2) ++ s₄
  let s₂ := l.rmtGap ++ l.rmtIp.flatten ++ ':' :: (l.rmtPort ++ s₃)
  let s₁ := l.gap ++ l.localIp.flatten ++ ':' :: (l.localPort ++ s₂)
  have htail : l.tail ++ s = s₁ := by
    simp [s₁, s₂, s₃, s₄, s₅, Line.tail]
  obtain ⟨localIp, hlocal, _, hlocalIp⟩ :=
    scanAddr_words lspells shows.gap 0 v.localIp (':' :: (l.localPort ++ s₂))
  obtain ⟨rmtIp, hrmt, _, hrmtIp⟩ :=
    scanAddr_words rspells shows.rmtGap 0 v.rmtIp (':' :: (l.rmtPort ++ s₃))
  rw [if_neg (words_ne_nil llen), llen] at hlocal
  rw [if_neg (words_ne_nil rlen), rlen] at hrmt
  have hwords : skipWords 6 s₃ = some s₄ := by
    rw [← tlen]
    apply skipWords_tokens skipped
    simp only [s₄, List.append_assoc]
    exact shows.inodeGap.1.head shows.inodeGap.2
  have hstops : Stops 10 s₅ := by
    intro c hc
    cases hr : l.rest with
    | nil =>
      simp only [s₅, hr, List.nil_append, List.head?_cons, Option.mem_def, Option.some.injEq] at hc
      subst hc
      decide
    | cons d rest =>
      simp only [s₅, hr, List.cons_append, List.head?_cons, Option.mem_def, Option.some.injEq] at hc
      exact stops c (by simp [hr, hc])
  have hinode : scanUnsigned 10 none s₄ = .got r.inode s₅ := by
    obtain ⟨hne, hdigits, hvalue⟩ := shows.inode
    have h := scanUnsigned_decimal shows.inodeGap.1.spaces hne hdigits hstops
    rw [hvalue, unsignedOf_nat (by omega), BitVec.ofNat_toNat, BitVec.setWidth_eq] at h
    exact h
  have hline : fgets 512 s₅ = some (l.rest ++ ['\n'], s) := fgets_line one (by omega)
  refine ⟨⟨localIp, rmtIp, r.localPort.setWidth 32, r.rmtPort.setWidth 32, r.inode⟩, ?_, ?_⟩
  · rw [htail, scanConn, hlocal]
    dsimp only
    rw [scanPort_digits _ shows.localPort.1 shows.localPort.2]
    dsimp only
    rw [hrmt]
    dsimp only
    rw [scanPort_digits _ shows.rmtPort.1 shows.rmtPort.2]
    dsimp only
    rw [hwords]
    dsimp only
    rw [hinode]
    dsimp only [scanInto]
    rw [hline]
  · simp [connOf, Record.conn, addrBytes_words llen hlocalIp, addrBytes_words rlen hrmtIp]

/-- The loop over lines, whatever the variables hold before. -/
theorem connLoop_lines {lines : List Line} {records : List Record}
    (shows : List.Forall₂ (Line.Shows type) lines records) (fuel : Nat) (v : ConnVars)
    (list : List Conn) (enough : lines.length < fuel)
    (few : list.length + records.length ≤ MAX_CONN_NUM) :
    connLoop ntop type fuel v (lines.flatMap Line.text) list =
      some (list ++ records.map (Record.conn ntop type)) := by
  induction shows generalizing fuel v list with
  | nil =>
    obtain ⟨n, hn⟩ := Nat.exists_eq_add_of_lt enough
    subst hn
    simp [connLoop, scanSlot, scanUnsigned]
  | @cons l r lines records hl shows ih =>
    obtain ⟨n, hn⟩ := Nat.exists_eq_add_of_lt enough
    subst hn
    rw [List.length_cons] at few
    obtain ⟨v', hconn, hentry⟩ := scanConn_line ntop hl v
    rw [connLoop, List.flatMap_cons, scanSlot_line hl]
    dsimp only
    rw [hconn]
    dsimp only
    rw [if_neg (by omega), hentry, ih _ _ _ (by rw [List.length_cons]; omega)
      (by rw [List.length_append, List.length_singleton]; omega)]
    simp

theorem lines_length (lines : List Line) : lines.length ≤ (lines.flatMap Line.text).length := by
  induction lines with
  | nil => exact Nat.le_refl 0
  | cons l lines ih =>
    have hpos : 1 ≤ l.text.length := by
      simp [Line.text]
      omega
    rw [List.flatMap_cons, List.length_append, List.length_cons]
    omega

theorem readConn_lines {files : String → Option (List Char)} {header : List Char}
    (one : '\n' ∉ header) (short : header.length < 511) {lines : List Line} {records : List Record}
    (few : records.length ≤ MAX_CONN_NUM) (shows : List.Forall₂ (Line.Shows type) lines records)
    (file : files ("/proc/net/" ++ type.name) = some (header ++ '\n' :: lines.flatMap Line.text))
    (stack : ConnVars) :
    readConn ntop files stack type = some (records.map (Record.conn ntop type)) := by
  have hheader : fgets 512 (header ++ '\n' :: lines.flatMap Line.text) =
      some (header ++ ['\n'], lines.flatMap Line.text) := fgets_line one (by omega)
  have hlen := lines_length lines
  rw [readConn, file]
  dsimp only
  rw [hheader]
  dsimp only
  rw [connLoop_lines shows _ stack [] (by omega) (by simpa using few), List.nil_append]

end Lines

/-- On a header and one line for each of at most `MAX_CONN_NUM` records, `read_conn` lists
exactly the records, in order. -/
theorem readConn_records (ntop : Bool → List Byte → List Char)
    (files : String → Option (List Char)) (stack : ConnVars) (type : ConnType)
    (header : List Char) (one : '\n' ∉ header) (short : header.length < 511)
    (records : List Record) (few : records.length ≤ MAX_CONN_NUM) (lines : List Line)
    (shows : List.Forall₂ (Line.Shows type) lines records)
    (file : files ("/proc/net/" ++ type.name) = some (header ++ '\n' :: lines.flatMap Line.text)) :
    readConn ntop files stack type = some (records.map (Record.conn ntop type)) :=
  readConn_lines one short few shows file stack

section Demo

/-- A listening socket on 127.0.0.1:631 as `/proc/net/tcp` shows it. -/
def demoLine : Line where
  lead := "   ".toList
  slot := "0".toList
  gap := " ".toList
  localIp := ["0100007F".toList]
  localPort := "0277".toList
  rmtGap := " ".toList
  rmtIp := ["00000000".toList]
  rmtPort := "0000".toList
  tokens := [(" ".toList, "0A".toList), (" ".toList, "00000000:00000000".toList),
    (" ".toList, "00:00000000".toList), (" ".toList, "00000000".toList),
    ("     ".toList, "0".toList), ("        ".toList, "0".toList)]
  inodeGap := " ".toList
  inode := "12345".toList
  rest := " 1 0000000000000000 100 0 0 10 0".toList

def demoRecord : Record := ⟨[0x0100007f], 631, [0], 0, 12345⟩

theorem demo_shows : demoLine.Shows .tcp demoRecord where
  lead := by decide
  slot := ⟨by decide, List.all_eq_true.mp (by decide)⟩
  gap := by decide
  localIp := ⟨rfl, .cons ⟨rfl, by decide⟩ .nil⟩
  localPort := ⟨rfl, by decide⟩
  rmtGap := by decide
  rmtIp := ⟨rfl, .cons ⟨rfl, by decide⟩ .nil⟩
  rmtPort := ⟨rfl, by decide⟩
  tokens := by
    refine ⟨rfl, ?_⟩
    intro t ht
    have hall : demoLine.tokens.all (fun t => t.1.all (· = ' ') && !t.1.isEmpty && !t.2.isEmpty &&
        t.2.all (fun c => !isSpace c) && decide (t.2.length < 512)) = true := by decide
    have h := List.all_eq_true.mp hall t ht
    simp only [Bool.and_eq_true, List.all_eq_true, decide_eq_true_eq, Bool.not_eq_true'] at h
    obtain ⟨⟨⟨⟨hblank, hne⟩, hne'⟩, hsolid⟩, hfits⟩ := h
    refine ⟨⟨fun c hc => .inl (hblank c hc), ?_⟩, ?_, hsolid, hfits⟩
    · intro he
      simp [he] at hne
    · intro he
      simp [he] at hne'
  inodeGap := by decide
  inode := by decide
  rest := ⟨by decide, fun c hc => by cases hc; decide⟩

/-- The same socket, and one on port 22 of all addresses, in `/proc/net/tcp6`. -/
def demoLine6 : Line :=
  { demoLine with
    localIp := ["00000000".toList, "00000000".toList, "FFFF0000".toList, "0100007F".toList]
    rmtIp := List.replicate 4 "00000000".toList }

def otherLine6 : Line :=
  { demoLine6 with
    slot := "1".toList
    localIp := List.replicate 4 "00000000".toList
    localPort := "0016".toList
    inode := "999".toList }

def demoRecord6 : Record := ⟨[0, 0, 0xffff0000, 0x0100007f], 631, [0, 0, 0, 0], 0, 12345⟩

def otherRecord6 : Record := ⟨[0, 0, 0, 0], 22, [0, 0, 0, 0], 0, 999⟩

theorem zeros_spell : SpellsIp .tcp6 (List.replicate 4 "00000000".toList) [0, 0, 0, 0] :=
  have zero : ("00000000".toList).length = 8 ∧ Spells 16 "00000000".toList (0 : BitVec 32).toNat :=
    ⟨rfl, by decide⟩
  ⟨rfl, .cons zero (.cons zero (.cons zero (.cons zero .nil)))⟩

theorem demo_shows6 : demoLine6.Shows .tcp6 demoRecord6 :=
  { demo_shows with
    localIp := ⟨rfl, .cons ⟨rfl, by decide⟩ (.cons ⟨rfl, by decide⟩ (.cons ⟨rfl, by decide⟩
      (.cons ⟨rfl, by decide⟩ .nil)))⟩
    rmtIp := zeros_spell }

theorem other_shows6 : otherLine6.Shows .tcp6 otherRecord6 :=
  { demo_shows6 with
    slot := ⟨by decide, List.all_eq_true.mp (by decide)⟩
    localIp := zeros_spell
    localPort := ⟨rfl, by decide⟩
    inode := by decide }

end Demo

/-- The two lines under a header, read over variables that hold something else. -/
theorem readConn_demo : ∃ conn other,
    readConn (fun _ bytes => bytes.map fun b => Char.ofNat b.toNat)
      (fun name => if name = "/proc/net/tcp6" then
        some ("  sl  local_address\n".toList ++ (demoLine6.text ++ otherLine6.text)) else none)
      ⟨fun _ => 7, fun _ => 7, 7, 7, 7⟩ .tcp6 = some [conn, other] ∧
      (conn.localPort = 631 ∧ conn.inode = 12345 ∧ conn.localIp.length = 16) ∧
      other.localPort = 22 ∧ other.inode = 999 := by
  refine ⟨_, _, readConn_records _ _ _ .tcp6 "  sl  local_address".toList (by decide) (by decide)
    [demoRecord6, otherRecord6] (by decide) [demoLine6, otherLine6]
    (.cons demo_shows6 (.cons other_shows6 .nil)) ?_, ⟨rfl, rfl, rfl⟩, rfl, rfl⟩
  have htext : [demoLine6, otherLine6].flatMap Line.text = demoLine6.text ++ otherLine6.text := by
    simp
  rw [htext]
  generalize demoLine6.text ++ otherLine6.text = text
  rfl

end UnixProgramming.Netstat.Proofs
