import Mathlib.Data.Finset.Card
import UnixProgramming.Netstat.Main

namespace UnixProgramming.Netstat.Proofs
open Lib

/-- The link text of a socket. -/
def socketText (inode : BitVec 32) : List Char :=
  "socket:[".toList ++ Nat.toDigits 10 inode.toNat ++ [']']

/-- The command line of a process as netstat has it. -/
def commandLine (p : ProcEntry) : List Char := cString ((readCmdline p.cmdline).getD [])

/-- The process has an open descriptor that links to the socket. -/
def Holds (p : ProcEntry) (inode : BitVec 32) : Prop :=
  ∃ fd, p.fd = some fd ∧ ∃ f ∈ fd, isStrDigit f.name = true ∧ f.link = some (socketText inode)

/-- The open descriptors of all processes, in the order the two loops meet them. -/
def descriptors (procs : List ProcEntry) : List (ProcEntry × FdEntry) :=
  (procs.filter fun p => isStrDigit p.name).flatMap fun p =>
    ((p.fd.getD []).filter fun f => isStrDigit f.name).map fun f => (p, f)

/-- The text `sscanf` gets to see. -/
def linkText (f : FdEntry) : List Char := f.link.getD []

/-- A snapshot of `/proc` as netstat can meet it. -/
structure Snapshot (procs : List ProcEntry) : Prop where
  readable : ∀ p ∈ procs, isStrDigit p.name = true → p.fd.isSome = true
  cmdline : ∀ p ∈ procs, isStrDigit p.name = true →
    ∃ text, p.cmdline = some text ∧ text ≠ [] ∧ text.length < 512
  links : ∀ d ∈ descriptors procs, (linkText d.2).length < 256
  few : (descriptors procs).length < MAX_PROCESS_NUM
  pids : ((procs.filter fun p => isStrDigit p.name).map fun p => atoi p.name).Nodup

section Entries
variable {procs : List ProcEntry} {p : ProcEntry} {f : FdEntry} {stale : Nat → BitVec 32}
  {room : Nat}

theorem mem_descriptors : (p, f) ∈ descriptors procs ↔
    (p ∈ procs ∧ isStrDigit p.name = true) ∧ ∃ fd, p.fd = some fd ∧ f ∈ fd ∧ isStrDigit f.name = true := by
  simp only [descriptors, List.mem_flatMap, List.mem_filter, List.mem_map, Prod.mk.injEq]
  constructor
  · intro h
    obtain ⟨q, hq, g, ⟨hg, hname⟩, he, hf⟩ := h
    subst he hf
    refine ⟨hq, ?_⟩
    cases hfd : q.fd with
    | none =>
      rw [hfd] at hg
      cases hg
    | some fd =>
      rw [hfd] at hg
      exact ⟨fd, rfl, hg, hname⟩
  · intro h
    obtain ⟨hp, fd, hfd, hf, hname⟩ := h
    exact ⟨p, hp, f, ⟨by rw [hfd]; exact hf, hname⟩, rfl, rfl⟩

theorem descriptors_owner {d : ProcEntry × FdEntry} (hd : d ∈ descriptors procs) :
    d.1 ∈ procs ∧ isStrDigit d.1.name = true :=
  (mem_descriptors.mp (show (d.1, d.2) ∈ descriptors procs from hd)).1

/-- The entry `read_fd` makes of a descriptor whose number is `inode`. -/
def entryOf (p : ProcEntry) (inode : BitVec 32) : ProcInfo :=
  ⟨inode, atoi p.name, (readCmdline p.cmdline).getD []⟩

/-- The entries for a row of descriptors when `idx` are there already. -/
def entriesFrom (stale : Nat → BitVec 32) : Nat → List (ProcEntry × FdEntry) → List ProcInfo
  | _, [] => []
  | idx, d :: rest =>
    match socketInode (stale idx) (linkText d.2) with
    | none => entriesFrom stale idx rest
    | some inode => entryOf d.1 inode :: entriesFrom stale (idx + 1) rest

theorem entriesFrom_append (l l' : List (ProcEntry × FdEntry)) (idx : Nat) :
    entriesFrom stale idx (l ++ l') =
      entriesFrom stale idx l ++ entriesFrom stale (idx + (entriesFrom stale idx l).length) l' := by
  induction l generalizing idx with
  | nil => rfl
  | cons d l ih =>
    rw [List.cons_append, entriesFrom, entriesFrom]
    cases socketInode (stale idx) (linkText d.2) with
    | none => exact ih idx
    | some inode =>
      dsimp only
      rw [ih, List.length_cons, List.cons_append]
      congr 3
      omega

theorem entriesFrom_length (stale : Nat → BitVec 32) (l : List (ProcEntry × FdEntry)) (idx : Nat) :
    (entriesFrom stale idx l).length ≤ l.length := by
  induction l generalizing idx with
  | nil => exact Nat.le_refl 0
  | cons d l ih =>
    rw [entriesFrom]
    cases socketInode (stale idx) (linkText d.2) with
    | none => exact Nat.le_succ_of_le (ih idx)
    | some inode => exact Nat.succ_le_succ (ih (idx + 1))

/-- When the number of each descriptor does not depend on the stack, neither do the entries. -/
theorem entriesFrom_eq {number : ProcEntry × FdEntry → Option (BitVec 32)}
    {l : List (ProcEntry × FdEntry)}
    (h : ∀ d ∈ l, ∀ idx, socketInode (stale idx) (linkText d.2) = number d) (idx : Nat) :
    entriesFrom stale idx l = l.filterMap fun d => (number d).map (entryOf d.1) := by
  induction l generalizing idx with
  | nil => rfl
  | cons d l ih =>
    have hl : ∀ d ∈ l, ∀ idx, socketInode (stale idx) (linkText d.2) = number d :=
      fun d hd => h d (List.mem_cons_of_mem _ hd)
    rw [entriesFrom, h d List.mem_cons_self idx, List.filterMap_cons]
    cases number d with
    | none => exact ih hl idx
    | some inode => exact congrArg (entryOf d.1 inode :: ·) (ih hl (idx + 1))

theorem tgpath_short (h : (linkText f).length < 256) : tgpath f.link = some (linkText f) := by
  unfold linkText at h ⊢
  cases hl : f.link with
  | none => rfl
  | some text =>
    rw [hl] at h
    simp only [Option.getD_some] at h
    simp [tgpath, Nat.not_le.mpr h]

/-- A table of so many entries can be made. -/
def made (room : Nat) (info : List ProcInfo) : Option (List ProcInfo) :=
  if info.length ≤ room then some info else none

theorem readLinks_entries {fd : List FdEntry} {info : List ProcInfo} {buffer : List Char}
    (cmdline : readCmdline p.cmdline = some buffer)
    (links : ∀ f ∈ fd, isStrDigit f.name = true → (linkText f).length < 256)
    (few : info.length + (fd.filter fun f => isStrDigit f.name).length < MAX_PROCESS_NUM)
    (fits : info.length ≤ room) :
    readLinks stale room p fd info = made room (info ++ entriesFrom stale info.length
      ((fd.filter fun f => isStrDigit f.name).map fun f => (p, f))) := by
  induction fd generalizing info with
  | nil => simp [readLinks, entriesFrom, made, fits]
  | cons f fd ih =>
    have hl : ∀ f ∈ fd, isStrDigit f.name = true → (linkText f).length < 256 :=
      fun f hf => links f (List.mem_cons_of_mem _ hf)
    rw [readLinks]
    by_cases hname : isStrDigit f.name = true
    · have hfilter : ((f :: fd).filter fun f => isStrDigit f.name) =
          f :: fd.filter fun f => isStrDigit f.name := by simp [hname]
      rw [hfilter, List.length_cons] at few
      rw [hfilter, List.map_cons, entriesFrom, tgpath_short (links f List.mem_cons_self hname)]
      simp only [hname, Bool.not_true, Bool.false_eq_true, if_false]
      cases socketInode (stale info.length) (linkText f) with
      | none => exact ih hl (by omega) fits
      | some inode =>
        have hentry : (⟨inode, atoi p.name, buffer⟩ : ProcInfo) = entryOf p inode := by
          simp [entryOf, cmdline]
        dsimp only
        rw [if_neg (by omega)]
        by_cases full : room ≤ info.length
        · rw [if_pos full, made, if_neg]
          rw [List.length_append, List.length_cons]
          omega
        · rw [if_neg full, cmdline]
          dsimp only
          rw [ih hl (by rw [List.length_append, List.length_singleton]; omega)
            (by rw [List.length_append, List.length_singleton]; omega), hentry,
            List.length_append, List.length_singleton, List.append_assoc, List.singleton_append]
    · have hname : isStrDigit f.name = false := by simpa using hname
      have hfilter : ((f :: fd).filter fun f => isStrDigit f.name) =
          fd.filter fun f => isStrDigit f.name := by simp [hname]
      rw [hfilter] at few ⊢
      simp only [hname, Bool.not_false, if_true]
      exact ih hl few fits

/-- `read_fd` goes through the open descriptors of all processes. -/
theorem readFd_entries (stale : Nat → BitVec 32) (info : List ProcInfo)
    (readable : ∀ p ∈ procs, isStrDigit p.name = true → p.fd.isSome = true)
    (cmdline : ∀ p ∈ procs, isStrDigit p.name = true → (readCmdline p.cmdline).isSome = true)
    (links : ∀ d ∈ descriptors procs, (linkText d.2).length < 256)
    (few : info.length + (descriptors procs).length < MAX_PROCESS_NUM)
    (fits : info.length ≤ room) :
    readFd stale room procs info =
      made room (info ++ entriesFrom stale info.length (descriptors procs)) := by
  induction procs generalizing info with
  | nil => simp [readFd, descriptors, entriesFrom, made, fits]
  | cons p procs ih =>
    have hr : ∀ p ∈ procs, isStrDigit p.name = true → p.fd.isSome = true :=
      fun q hq => readable q (List.mem_cons_of_mem _ hq)
    have hc : ∀ p ∈ procs, isStrDigit p.name = true → (readCmdline p.cmdline).isSome = true :=
      fun q hq => cmdline q (List.mem_cons_of_mem _ hq)
    rw [readFd]
    by_cases hname : isStrDigit p.name = true
    · obtain ⟨fd, hfd⟩ := Option.isSome_iff_exists.mp (readable p List.mem_cons_self hname)
      obtain ⟨buffer, hbuffer⟩ := Option.isSome_iff_exists.mp (cmdline p List.mem_cons_self hname)
      have hsplit : descriptors (p :: procs) =
          ((fd.filter fun f => isStrDigit f.name).map fun f => (p, f)) ++ descriptors procs := by
        simp [descriptors, hname, hfd]
      rw [hsplit, List.length_append, List.length_map] at few
      rw [hsplit] at links ⊢
      have hlinks : ∀ f ∈ fd, isStrDigit f.name = true → (linkText f).length < 256 := by
        intro f hf hn
        refine links (p, f) (List.mem_append_left _ ?_)
        exact List.mem_map_of_mem (List.mem_filter.mpr ⟨hf, hn⟩)
      have hlen := entriesFrom_length stale
        ((fd.filter fun f => isStrDigit f.name).map fun f => (p, f)) info.length
      rw [List.length_map] at hlen
      simp only [hname, Bool.not_true, Bool.false_eq_true, if_false, hfd]
      rw [readLinks_entries hbuffer hlinks (by omega) fits, entriesFrom_append, ← List.append_assoc]
      -- the table so far is made, or it is too long already
      by_cases hmade : (info ++ entriesFrom stale info.length
          ((fd.filter fun f => isStrDigit f.name).map fun f => (p, f))).length ≤ room
      · have hfirst : made room (info ++ entriesFrom stale info.length
            ((fd.filter fun f => isStrDigit f.name).map fun f => (p, f))) = some _ := if_pos hmade
        rw [hfirst]
        dsimp only
        rw [ih _ hr hc (fun d hd => links d (List.mem_append_right _ hd))
          (by rw [List.length_append]; omega) hmade, List.length_append]
      · have hfirst : made room (info ++ entriesFrom stale info.length
            ((fd.filter fun f => isStrDigit f.name).map fun f => (p, f))) = none := if_neg hmade
        rw [hfirst, made, if_neg]
        rw [List.length_append]
        omega
    · have hname : isStrDigit p.name = false := by simpa using hname
      have hsame : descriptors (p :: procs) = descriptors procs := by
        simp [descriptors, hname]
      rw [hsame] at few links ⊢
      simp only [hname, Bool.not_false, if_true]
      exact ih info hr hc links few fits

theorem readCmdline_some {text : List Char} (some_ : text ≠ []) (fits : text.length < 512) :
    (readCmdline (some text)).isSome = true := by
  have hlen : (text.take 512).length = text.length := by
    rw [List.length_take]
    omega
  have hpos := List.length_pos_of_ne_nil some_
  simp only [readCmdline, hlen]
  rw [if_neg (by omega)]
  rfl

theorem Snapshot.table (snap : Snapshot procs) (stale : Nat → BitVec 32) (room : Nat) :
    readFd stale room procs [] = made room (entriesFrom stale 0 (descriptors procs)) := by
  have hcmd : ∀ p ∈ procs, isStrDigit p.name = true → (readCmdline p.cmdline).isSome = true := by
    intro p hp hname
    obtain ⟨text, ht, hne, hfits⟩ := snap.cmdline p hp hname
    rw [ht]
    exact readCmdline_some hne hfits
  have h := readFd_entries stale [] snap.readable hcmd snap.links
    (by rw [List.length_nil, Nat.zero_add]; exact snap.few) (Nat.zero_le room)
  simpa using h

end Entries

section Numbers
variable {procs : List ProcEntry} {p : ProcEntry} {f : FdEntry} {d : ProcEntry × FdEntry}
  {inode : BitVec 32}

/-- The number `sscanf` reads in a link, if it reads one. -/
def numberOf (d : ProcEntry × FdEntry) : Option (BitVec 32) :=
  match scanSocket (linkText d.2) with
  | .got inode _ => some inode
  | _ => none

theorem socketInode_number (h : scanSocket (linkText d.2) ≠ .eof) (old : BitVec 32) :
    socketInode old (linkText d.2) = numberOf d := by
  unfold socketInode numberOf
  cases hs : scanSocket (linkText d.2) with
  | got n rest => rfl
  | mismatch rest => rfl
  | eof => exact absurd hs h

theorem socketInode_eof (h : scanSocket (linkText d.2) = .eof) (old : BitVec 32) :
    socketInode old (linkText d.2) = some old := by
  rw [socketInode, h]

theorem scanText_append (cs s : List Char) : scanText cs (cs ++ s) = .got () s := by
  induction cs with
  | nil => rfl
  | cons c cs ih => simp [scanText, scanLit, ih]

theorem scanSocket_prefix (s : List Char) :
    scanSocket ("socket:[".toList ++ s) = scanUnsigned 10 none s := by
  rw [scanSocket, scanText_append]

theorem stops_bracket : Stops 10 [']'] := by
  intro c hc
  cases hc
  decide

theorem scanUnsigned_bracket {ds : List Char} (digits : ∀ c ∈ ds, isDigitIn 10 c = true)
    (value : digitsValue 10 ds = inode.toNat) (some_ : ds ≠ []) :
    scanUnsigned 10 none (ds ++ [']']) = .got inode [']'] := by
  have hblank : ∀ c ∈ ([] : List Char), isSpace c = true := by simp
  have hscan := scanUnsigned_decimal hblank some_ digits stops_bracket
  rw [value, unsignedOf_nat (by omega), BitVec.ofNat_toNat, BitVec.setWidth_eq,
    List.nil_append] at hscan
  exact hscan

/-- The link of a socket is read as its number. -/
theorem scanSocket_text (inode : BitVec 32) : scanSocket (socketText inode) = .got inode [']'] := by
  obtain ⟨hdigits, hvalue⟩ := toDigits_decimal inode.toNat
  have hne : Nat.toDigits 10 inode.toNat ≠ [] := Nat.toDigits_ne_nil
  unfold socketText
  rw [List.append_assoc, scanSocket_prefix]
  exact scanUnsigned_bracket hdigits hvalue hne

theorem numberOf_socket (h : f.link = some (socketText inode)) : numberOf (p, f) = some inode := by
  rw [numberOf, linkText, h, Option.getD_some, scanSocket_text]

theorem holds_number (hp : p ∈ procs) (hname : isStrDigit p.name = true) (h : Holds p inode) :
    ∃ f, (p, f) ∈ descriptors procs ∧ numberOf (p, f) = some inode := by
  obtain ⟨fd, hfd, f, hf, hn, hlink⟩ := h
  exact ⟨f, mem_descriptors.mpr ⟨⟨hp, hname⟩, fd, hfd, hf, hn⟩, numberOf_socket hlink⟩

/-- The owner that `show` finds is the process of the first descriptor with the number of the
connection, among the processes whose command line matches. -/
theorem findOwner_first {regexec : List Char → List Char → Bool} {filter : List Char} {conn : Conn}
    (number : ProcEntry × FdEntry → Option (BitVec 32)) (l : List (ProcEntry × FdEntry)) :
    findOwner regexec (l.filterMap fun d => (number d).map (entryOf d.1)) filter conn =
      (l.find? fun d => number d == some conn.inode && regexec filter (commandLine d.1)).map
        fun d => entryOf d.1 conn.inode := by
  have hpass : (fun d : ProcEntry × FdEntry => ((number d).map (entryOf d.1)).any fun p =>
        conn.inode == p.inode && regexec filter (cString p.cmdline)) =
      fun d => number d == some conn.inode && regexec filter (commandLine d.1) := by
    funext d
    cases number d with
    | none => rfl
    | some inode =>
      have hsym : (conn.inode == inode) = (inode == conn.inode) := by
        rw [Bool.eq_iff_iff, beq_iff_eq, beq_iff_eq, eq_comm]
      simp [entryOf, commandLine, hsym]
  unfold findOwner
  rw [List.find?_filterMap, hpass]
  cases hf : l.find? fun d => number d == some conn.inode && regexec filter (commandLine d.1) with
  | none => rfl
  | some d =>
    have hd := List.find?_some hf
    simp only [Bool.and_eq_true, beq_iff_eq] at hd
    simp [hd.1]

end Numbers

/-- What the claims of a row say about a connection: its owner holds the socket and matches,
it is there with a filter when there is such a process, and without one it shows `-` when no
process holds the socket. -/
structure RowRight (procs : List ProcEntry) (regexec : List Char → List Char → Bool)
    (info : List ProcInfo) (filter : List Char) (conn : Conn) : Prop where
  sound : ∀ row pid cmd, showConn regexec info filter conn = some row →
    row.owner = some (pid, cmd) → ∃ p ∈ procs, isStrDigit p.name = true ∧ atoi p.name = pid ∧
      commandLine p = cmd ∧ Holds p conn.inode ∧ regexec filter cmd = true
  printed : filter ≠ [] → ((showConn regexec info filter conn).isSome = true ↔
    ∃ p ∈ procs, isStrDigit p.name = true ∧ Holds p conn.inode ∧
      regexec filter (commandLine p) = true)
  dash : filter = [] → ∃ row, showConn regexec info filter conn = some row ∧
    (row.owner = none ↔ ¬∃ p ∈ procs, isStrDigit p.name = true ∧ Holds p conn.inode)

/-- No link makes `sscanf` return `EOF`, and of the descriptors it reads one number from, among
the processes with one command line, the first belongs to a process that holds the socket of
that number. -/
structure Traceable (procs : List ProcEntry) : Prop where
  ends : ∀ d ∈ descriptors procs, scanSocket (linkText d.2) ≠ .eof
  first : ∀ inode cmd d, (descriptors procs).find? (fun d =>
    numberOf d == some inode && commandLine d.1 == cmd) = some d → Holds d.1 inode

/-- In particular every `readlink` succeeds. -/
theorem Traceable.linked {procs : List ProcEntry} (trace : Traceable procs)
    {d : ProcEntry × FdEntry} (hd : d ∈ descriptors procs) : d.2.link ≠ none := by
  intro hnone
  refine trace.ends d hd ?_
  rw [linkText, hnone]
  rfl

/-- Where there are only sockets all can be traced. -/
theorem traceable_sockets {procs : List ProcEntry}
    (sockets : ∀ d ∈ descriptors procs, ∃ inode, d.2.link = some (socketText inode)) :
    Traceable procs where
  ends := by
    intro d hd
    obtain ⟨inode, hlink⟩ := sockets d hd
    rw [linkText, hlink, Option.getD_some, scanSocket_text]
    simp
  first := by
    intro inode cmd d hfirst
    have hd := List.mem_of_find?_eq_some hfirst
    have hpass := List.find?_some hfirst
    obtain ⟨n, hlink⟩ := sockets d hd
    have hnumber : numberOf d = some n := numberOf_socket (p := d.1) hlink
    simp only [hnumber, Bool.and_eq_true, beq_iff_eq, Option.some.injEq] at hpass
    obtain ⟨-, fd, hfd, hf, hname⟩ := mem_descriptors.mp (show (d.1, d.2) ∈ descriptors procs from hd)
    exact ⟨fd, hfd, d.2, hf, hname, hpass.1 ▸ hlink⟩

/-- What is relied on of `regcomp` and `regexec`: the empty filter is valid and matches
everything, and for every string there is a filter for just that one. -/
structure RegexLaws (valid : List Char → Prop) (regexec : List Char → List Char → Bool) :
    Prop where
  empty_valid : valid []
  empty : ∀ c, regexec [] c = true
  exact : ∀ c, '\x00' ∉ c → ∃ filter, filter ≠ [] ∧ valid filter ∧
    ∀ c', '\x00' ∉ c' → (regexec filter c' = true ↔ c' = c)

section Rows
variable {procs : List ProcEntry} {regexec : List Char → List Char → Bool}
  {valid : List Char → Prop} {filter : List Char} {conn : Conn} {p : ProcEntry}
  {d : ProcEntry × FdEntry} {stale : Nat → BitVec 32} {room : Nat}

theorem commandLine_nul (p : ProcEntry) : '\x00' ∉ commandLine p := by
  intro h
  have hall := List.all_takeWhile (p := (· ≠ '\x00')) (l := (readCmdline p.cmdline).getD [])
  have hc := List.all_eq_true.mp hall '\x00' h
  simp at hc

/-- The descriptor that a row is printed for. -/
def firstMatch (procs : List ProcEntry) (regexec : List Char → List Char → Bool)
    (filter : List Char) (conn : Conn) : Option (ProcEntry × FdEntry) :=
  (descriptors procs).find? fun d =>
    numberOf d == some conn.inode && regexec filter (commandLine d.1)

/-- The first match belongs to a process that holds the socket: it is the first one among those
with its own command line, too. -/
theorem firstMatch_holds (trace : Traceable procs) (h : firstMatch procs regexec filter conn = some d) :
    d ∈ descriptors procs ∧ Holds d.1 conn.inode ∧ regexec filter (commandLine d.1) = true := by
  obtain ⟨hd, before, after, hsplit, hnone⟩ := List.find?_eq_some_iff_append.mp h
  simp only [Bool.and_eq_true, beq_iff_eq] at hd
  refine ⟨List.mem_of_find?_eq_some h, trace.first conn.inode (commandLine d.1) d ?_, hd.2⟩
  refine List.find?_eq_some_iff_append.mpr ⟨by simp [hd.1], before, after, hsplit, ?_⟩
  intro e he
  have hmiss := hnone e he
  simp only [Bool.not_eq_true', Bool.and_eq_false_iff, beq_eq_false_iff_ne] at hmiss ⊢
  refine hmiss.imp_right fun hno hcmd => ?_
  rw [hcmd, hd.2] at hno
  cases hno

theorem firstMatch_found (hp : p ∈ procs) (hname : isStrDigit p.name = true)
    (holds : Holds p conn.inode) (matches_ : regexec filter (commandLine p) = true) :
    (firstMatch procs regexec filter conn).isSome = true := by
  obtain ⟨f, hf, hnumber⟩ := holds_number hp hname holds
  exact List.find?_isSome.mpr ⟨(p, f), hf, by simp [hnumber, matches_]⟩

/-- The entries of a snapshot whose links all read as a number or as none. -/
def entries (procs : List ProcEntry) : List ProcInfo :=
  (descriptors procs).filterMap fun d => (numberOf d).map (entryOf d.1)

theorem table_entries (snap : Snapshot procs)
    (ends : ∀ d ∈ descriptors procs, scanSocket (linkText d.2) ≠ .eof) (stale : Nat → BitVec 32)
    (room : Nat) : readFd stale room procs [] = made room (entries procs) := by
  rw [snap.table, entriesFrom_eq fun d hd idx => socketInode_number (ends d hd) (stale idx)]
  rfl

theorem findOwner_entries : findOwner regexec (entries procs) filter conn =
    (firstMatch procs regexec filter conn).map fun d => entryOf d.1 conn.inode :=
  findOwner_first numberOf (descriptors procs)

theorem showConn_isSome (info : List ProcInfo) (filter : List Char) (conn : Conn) :
    (showConn regexec info filter conn).isSome = true ↔
      (findOwner regexec info filter conn).isSome = true ∨ filter = [] := by
  have hiff : ((findOwner regexec info filter conn).isSome || filter.isEmpty) = true ↔
      (findOwner regexec info filter conn).isSome = true ∨ filter = [] := by
    rw [Bool.or_eq_true, List.isEmpty_iff]
  rw [← hiff, showConn]
  split
  · next h => simp [h]
  · next h => simp [h]

theorem showConn_owner {info : List ProcInfo} {row : Row}
    (h : showConn regexec info filter conn = some row) :
    row.owner = (findOwner regexec info filter conn).map fun p => (p.pid, cString p.cmdline) := by
  simp only [showConn] at h
  split at h
  · cases h
    rfl
  · cases h

/-- The rows of a snapshot that can be traced are right. -/
theorem rowRight_of_traceable (laws : RegexLaws valid regexec) (trace : Traceable procs)
    (filter : List Char) (conn : Conn) : RowRight procs regexec (entries procs) filter conn where
  sound := by
    intro row pid cmd hrow howner
    rw [showConn_owner hrow, findOwner_entries] at howner
    cases hd : firstMatch procs regexec filter conn with
    | none =>
      rw [hd] at howner
      cases howner
    | some d =>
      rw [hd] at howner
      cases howner
      obtain ⟨hmem, hholds, hmatch⟩ := firstMatch_holds trace hd
      obtain ⟨hp, hname⟩ := descriptors_owner hmem
      exact ⟨d.1, hp, hname, rfl, rfl, hholds, hmatch⟩
  printed := by
    intro hne
    rw [showConn_isSome, or_iff_left hne, findOwner_entries, Option.isSome_map]
    constructor
    · intro hsome
      obtain ⟨d, hd⟩ := Option.isSome_iff_exists.mp hsome
      obtain ⟨hmem, hholds, hmatch⟩ := firstMatch_holds trace hd
      obtain ⟨hp, hname⟩ := descriptors_owner hmem
      exact ⟨d.1, hp, hname, hholds, hmatch⟩
    · intro h
      obtain ⟨p, hp, hname, hholds, hmatch⟩ := h
      exact firstMatch_found hp hname hholds hmatch
  dash := by
    intro he
    subst he
    obtain ⟨row, hrow⟩ := Option.isSome_iff_exists.mp
      ((showConn_isSome (entries procs) [] conn).mpr (.inr rfl))
    refine ⟨row, hrow, ?_⟩
    rw [showConn_owner hrow, findOwner_entries, Option.map_map, Option.map_eq_none_iff]
    constructor
    · intro hnone h
      obtain ⟨p, hp, hname, hholds⟩ := h
      have hfound := firstMatch_found hp hname hholds (laws.empty (commandLine p))
      rw [hnone] at hfound
      cases hfound
    · intro hno
      cases hd : firstMatch procs regexec [] conn with
      | none => rfl
      | some d =>
        obtain ⟨hmem, hholds, -⟩ := firstMatch_holds trace hd
        obtain ⟨hp, hname⟩ := descriptors_owner hmem
        exact absurd ⟨d.1, hp, hname, hholds⟩ hno

/-- Some number is that of no descriptor. -/
theorem exists_unread (few : (descriptors procs).length < MAX_PROCESS_NUM) :
    ∃ inode, ∀ d ∈ descriptors procs, numberOf d ≠ some inode := by
  let used := (((descriptors procs).filterMap numberOf).map BitVec.toNat).toFinset
  have hcard : used.card < (Finset.range MAX_PROCESS_NUM).card := by
    rw [Finset.card_range]
    refine lt_of_le_of_lt (List.toFinset_card_le _) ?_
    rw [List.length_map]
    exact lt_of_le_of_lt (List.length_filterMap_le _ _) few
  obtain ⟨n, hn, hfresh⟩ := Finset.exists_mem_notMem_of_card_lt_card hcard
  refine ⟨BitVec.ofNat 32 n, ?_⟩
  intro d hd hnumber
  have hlt : n < MAX_PROCESS_NUM := Finset.mem_range.mp hn
  have htoNat : (BitVec.ofNat 32 n).toNat = n := by
    rw [BitVec.toNat_ofNat, Nat.mod_eq_of_lt]
    unfold MAX_PROCESS_NUM at hlt
    omega
  exact hfresh (List.mem_toFinset.mpr
    (List.mem_map.mpr ⟨_, List.mem_filterMap.mpr ⟨d, hd, hnumber⟩, htoNat⟩))

/-- A link that ends the input leaves an entry with what was on the stack. -/
theorem entriesFrom_eof {n : BitVec 32} {l : List (ProcEntry × FdEntry)} (hd : d ∈ l)
    (eof : scanSocket (linkText d.2) = .eof) (idx : Nat) :
    entryOf d.1 n ∈ entriesFrom (fun _ => n) idx l := by
  induction l generalizing idx with
  | nil => cases hd
  | cons e l ih =>
    rw [entriesFrom]
    rcases List.mem_cons.mp hd with hde | hd
    · rw [← hde, socketInode_eof eof]
      exact List.mem_cons_self
    · cases socketInode n (linkText e.2) with
      | none => exact ih hd idx
      | some inode => exact List.mem_cons_of_mem _ (ih hd (idx + 1))

theorem pid_injective (snap : Snapshot procs) {q : ProcEntry} (hp : p ∈ procs)
    (hname : isStrDigit p.name = true) (hq : q ∈ procs) (hname' : isStrDigit q.name = true)
    (same : atoi p.name = atoi q.name) : p = q :=
  List.inj_on_of_nodup_map snap.pids (List.mem_filter.mpr ⟨hp, hname⟩)
    (List.mem_filter.mpr ⟨hq, hname'⟩) same

/-- With rows that are right whatever is on the stack, no link ends the input. -/
theorem ends_of_right (laws : RegexLaws valid regexec) (snap : Snapshot procs)
    (right : ∀ stale, ∃ info, readFd stale room procs [] = some info ∧
      ∀ filter, valid filter → ∀ conn, RowRight procs regexec info filter conn) :
    ∀ d ∈ descriptors procs, scanSocket (linkText d.2) ≠ .eof := by
  intro d hd heof
  obtain ⟨n, hn⟩ := exists_unread snap.few
  obtain ⟨info, hinfo, hright⟩ := right fun _ => n
  rw [snap.table, made] at hinfo
  split at hinfo
  case isFalse => cases hinfo
  cases hinfo
  -- the connection of that number is attributed to someone, and nobody holds its socket
  let conn : Conn := ⟨[], [], "", 0, 0, n⟩
  have hfound : (findOwner regexec (entriesFrom (fun _ => n) 0 (descriptors procs)) [] conn).isSome
      = true :=
    List.find?_isSome.mpr ⟨_, entriesFrom_eof hd heof 0, by simp [conn, entryOf, laws.empty]⟩
  obtain ⟨row, hrow, hdash⟩ := (hright [] laws.empty_valid conn).dash rfl
  refine absurd (hdash.mpr ?_) ?_
  · intro h
    obtain ⟨p, hp, hname, hholds⟩ := h
    obtain ⟨f, hf, hnumber⟩ := holds_number hp hname hholds
    exact hn (p, f) hf hnumber
  · intro hnone
    rw [showConn_owner hrow, Option.map_eq_none_iff] at hnone
    rw [hnone] at hfound
    cases hfound

/-- The filter for one command line brings out the first descriptor of its processes. -/
theorem first_of_right (laws : RegexLaws valid regexec) (snap : Snapshot procs)
    (right : ∀ filter, valid filter → ∀ conn, RowRight procs regexec (entries procs) filter conn)
    {inode : BitVec 32} {cmd : List Char} (first : (descriptors procs).find? (fun d =>
      numberOf d == some inode && commandLine d.1 == cmd) = some d) : Holds d.1 inode := by
  have hd := List.find?_some first
  simp only [Bool.and_eq_true, beq_iff_eq] at hd
  obtain ⟨hp, hname⟩ := descriptors_owner (List.mem_of_find?_eq_some first)
  obtain ⟨filter, hne, hvalid, hexact⟩ := laws.exact cmd (hd.2 ▸ commandLine_nul d.1)
  let conn : Conn := ⟨[], [], "", 0, 0, inode⟩
  have hfirst : firstMatch procs regexec filter conn = some d := by
    rw [← first, firstMatch]
    congr 1
    funext e
    congr 1
    rw [Bool.eq_iff_iff, beq_iff_eq]
    exact hexact _ (commandLine_nul e.1)
  have howner : findOwner regexec (entries procs) filter conn = some (entryOf d.1 inode) := by
    rw [findOwner_entries, hfirst]
    rfl
  obtain ⟨row, hrow⟩ := Option.isSome_iff_exists.mp
    ((showConn_isSome (entries procs) filter conn).mpr (.inl (by rw [howner]; rfl)))
  have hrowner := showConn_owner hrow
  rw [howner] at hrowner
  obtain ⟨q, hq, hqname, hpid, -, hholds, -⟩ := (right filter hvalid conn).sound row _ _ hrow hrowner
  rw [pid_injective snap hp hname hq hqname hpid.symm]
  exact hholds

end Rows

/-- The rows that netstat prints are right, with every filter and whatever the stack holds,
exactly when the descriptors can be traced and a file can be left open for each one with a
number. -/
theorem attribution_sound_iff (procs : List ProcEntry) (snap : Snapshot procs) (room : Nat)
    (valid : List Char → Prop) (regexec : List Char → List Char → Bool)
    (laws : RegexLaws valid regexec) :
    (∀ stale, ∃ info, readFd stale room procs [] = some info ∧
      ∀ filter, valid filter → ∀ conn, RowRight procs regexec info filter conn) ↔
      Traceable procs ∧ ((descriptors procs).filterMap numberOf).length ≤ room := by
  have hlen : ((descriptors procs).filterMap numberOf).length = (entries procs).length := by
    simp [entries, List.length_filterMap_eq_countP]
  rw [hlen]
  constructor
  · intro right
    have hends := ends_of_right laws snap right
    obtain ⟨info, hinfo, hright⟩ := right fun _ => 0
    rw [table_entries snap hends, made] at hinfo
    split at hinfo
    case isFalse => cases hinfo
    rename_i fits
    cases hinfo
    exact ⟨⟨hends, fun inode cmd d hfirst => first_of_right laws snap hright hfirst⟩, fits⟩
  · rintro ⟨trace, fits⟩ stale
    refine ⟨entries procs, ?_, fun filter _ conn => rowRight_of_traceable laws trace filter conn⟩
    rw [table_entries snap trace.ends, made, if_pos fits]

section Demo

/-- A character of a basic regular expression that stands for itself. -/
def escape (c : Char) : List Char :=
  if c ∈ ['.', '[', '\\', '*', '^', '$'] then ['\\', c] else [c]

def escapeAll : List Char → List Char
  | [] => ['$']
  | c :: cs => escape c ++ escapeAll cs

/-- The expression for one string, anchored at both ends. -/
def exactly (cs : List Char) : List Char := '^' :: escapeAll cs

theorem escapeAll_nil_ne (c : Char) (cs : List Char) : ['$'] ≠ escapeAll (c :: cs) := by
  intro h
  by_cases hc : c ∈ ['.', '[', '\\', '*', '^', '$']
  · simp [escapeAll, escape, hc] at h
  · simp only [escapeAll, escape, hc, if_false, List.singleton_append, List.cons.injEq] at h
    exact hc (by simp [← h.1])

theorem escapeAll_injective {cs cs' : List Char} (h : escapeAll cs = escapeAll cs') : cs = cs' := by
  induction cs generalizing cs' with
  | nil =>
    cases cs' with
    | nil => rfl
    | cons c' cs' => exact absurd h (escapeAll_nil_ne c' cs')
  | cons c cs ih =>
    cases cs' with
    | nil => exact absurd h.symm (escapeAll_nil_ne c cs)
    | cons c' cs' =>
      rw [escapeAll, escapeAll, escape, escape] at h
      by_cases hc : c ∈ ['.', '[', '\\', '*', '^', '$'] <;>
        by_cases hc' : c' ∈ ['.', '[', '\\', '*', '^', '$']
      · simp only [hc, hc', if_true, List.cons_append, List.nil_append, List.cons.injEq,
          true_and] at h
        rw [h.1, ih h.2]
      · simp only [hc, hc', if_true, if_false, List.cons_append, List.nil_append,
          List.cons.injEq] at h
        exact absurd (by simp [← h.1]) hc'
      · simp only [hc, hc', if_true, if_false, List.cons_append, List.nil_append,
          List.cons.injEq] at h
        exact absurd (by simp [h.1]) hc
      · simp only [hc, hc', if_false, List.cons_append, List.nil_append, List.cons.injEq] at h
        rw [h.1, ih h.2]

/-- Matching with the empty filter and with the filters for one string. -/
def exactRegexec (filter cs : List Char) : Bool := filter.isEmpty || filter == exactly cs

def exactValid (filter : List Char) : Prop := filter = [] ∨ ∃ cs, '\x00' ∉ cs ∧ filter = exactly cs

theorem exact_laws : RegexLaws exactValid exactRegexec where
  empty_valid := .inl rfl
  empty _ := rfl
  exact := by
    intro c hc
    refine ⟨exactly c, by simp [exactly], .inr ⟨c, hc, rfl⟩, ?_⟩
    intro c' _
    simp only [exactRegexec, exactly, List.isEmpty_cons, Bool.false_or, beq_iff_eq,
      List.cons.injEq, true_and]
    exact ⟨fun h => (escapeAll_injective h).symm, fun h => by rw [h]⟩

/-- Process 10 has a socket, and process 20 a descriptor that is gone when it is read. -/
def goneProcs : List ProcEntry :=
  [⟨"10", some [⟨"3", some "socket:[100]".toList⟩], some "a".toList⟩,
    ⟨"20", some [⟨"4", none⟩], some "b".toList⟩]

theorem gone_snapshot : Snapshot goneProcs where
  readable := by simp [goneProcs]
  cmdline := by simp [goneProcs]
  links := by
    have hall : (descriptors goneProcs).all (fun d => decide ((linkText d.2).length < 256)) = true := by
      decide
    simpa using hall
  few := by decide
  pids := by decide

/-- A connection of the first process. -/
def goneConn : Conn := ⟨"127.0.0.1".toList, "0.0.0.0".toList, "tcp", 80, 0, 100⟩

/-- Two processes with a socket each. -/
def heldProcs : List ProcEntry :=
  [⟨"10", some [⟨"3", some (socketText 100)⟩], some "a".toList⟩,
    ⟨"20", some [⟨"4", some (socketText 200)⟩], some "b".toList⟩]

theorem held_snapshot : Snapshot heldProcs where
  readable := by simp [heldProcs]
  cmdline := by simp [heldProcs]
  links := by
    have hall : (descriptors heldProcs).all (fun d => decide ((linkText d.2).length < 256)) = true := by
      decide
    simpa using hall
  few := by decide
  pids := by decide

theorem held_sockets : ∀ d ∈ descriptors heldProcs, ∃ inode, d.2.link = some (socketText inode) := by
  rintro ⟨p, f⟩ hd
  obtain ⟨⟨hp, -⟩, fd, hfd, hf, -⟩ := mem_descriptors.mp hd
  simp only [heldProcs, List.mem_cons, List.not_mem_nil, or_false] at hp
  rcases hp with rfl | rfl
  · cases hfd
    exact ⟨100, by rw [List.mem_singleton.mp hf]⟩
  · cases hfd
    exact ⟨200, by rw [List.mem_singleton.mp hf]⟩

/-- The second file cannot be opened where there is room for one. -/
example : (readFd (fun _ => 0) 1 heldProcs []).isNone = true := by decide

end Demo

theorem attribution_sound_demo : ∃ info, readFd (fun _ => 100) 2 heldProcs [] = some info ∧
    ∀ filter, exactValid filter → ∀ conn, RowRight heldProcs exactRegexec info filter conn :=
  (attribution_sound_iff heldProcs held_snapshot 2 exactValid exactRegexec exact_laws).mpr
    ⟨traceable_sockets held_sockets, by decide⟩ fun _ => 100

/-- With the filter for the command line of the process 20 the connection is attributed to it:
the variable still has the number of the socket read before. -/
theorem attribution_stale : Snapshot goneProcs ∧ exactValid (exactly "b".toList) ∧
    ∃ info, readFd (fun _ => 100) 1000 goneProcs [] = some info ∧
      ((showConn exactRegexec info (exactly "b".toList) goneConn).map Row.owner =
        some (some (20, "b".toList))) ∧
      ¬RowRight goneProcs exactRegexec info (exactly "b".toList) goneConn := by
  refine ⟨gone_snapshot, .inr ⟨_, by decide, rfl⟩, _, rfl, by decide, ?_⟩
  intro right
  obtain ⟨p, hp, -, hholds, hmatch⟩ := (right.printed (by decide)).mp (by decide)
  simp only [goneProcs, List.mem_cons, List.not_mem_nil, or_false] at hp
  rcases hp with rfl | rfl
  · revert hmatch
    decide
  · obtain ⟨fd, hfd, f, hf, -, hlink⟩ := hholds
    cases hfd
    simp only [List.mem_singleton] at hf
    subst hf
    cases hlink

end UnixProgramming.Netstat.Proofs
