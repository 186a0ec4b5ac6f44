import UnixProgramming.Netstat.Report
import UnixProgramming.Netstat.Proofs.Conns
import UnixProgramming.Netstat.Proofs.Attribution

namespace UnixProgramming.Netstat.Proofs
open Lib

section Options

/-- The options and the filter of a command line. -/
def asked (posix : Bool) (args : List (List Char)) : List Opt := (getoptLong optstring opts posix args).1

/-- The types of the protocols that are left. -/
def keep (tcp udp : Bool) : BitVec 32 := (if tcp then 0x3 else 0) ||| (if udp then 0xc else 0)

/-- Neither of the two options. -/
def Opt.bad (o : Opt) : Bool := o ≠ .code 't' && o ≠ .code 'u'

/-- Each of the options takes the other protocol away, and the first one that is neither ends
the loop. -/
theorem chooseTypes_keep (tcp udp : Bool) (found : List Opt) :
    chooseTypes (keep tcp udp) found = match found.find? Opt.bad with
      | some .unlisted => .fault
      | some _ => .usage
      | none => .types (keep (tcp && .code 'u' ∉ found) (udp && .code 't' ∉ found)) := by
  induction found generalizing tcp udp with
  | nil => simp [chooseTypes]
  | cons o found ih =>
    cases o with
    | code c =>
      by_cases ht : c = 't'
      · have hkeep : keep tcp udp &&& 0x3 = keep tcp false := by cases tcp <;> cases udp <;> rfl
        subst ht
        rw [chooseTypes, if_pos rfl, hkeep, ih]
        simp [Opt.bad]
      · by_cases hu : c = 'u'
        · have hkeep : keep tcp udp &&& 0xc = keep false udp := by cases tcp <;> cases udp <;> rfl
          subst hu
          rw [chooseTypes, if_neg (by decide), if_pos rfl, hkeep, ih]
          simp [Opt.bad]
        · have hbad : Opt.bad (.code c) = true := by simp [Opt.bad, ht, hu]
          rw [chooseTypes, if_neg ht, if_neg hu, List.find?_cons_of_pos hbad]
    | invalid => rfl
    | unlisted => rfl

end Options

section Rows
variable {w : World} {filter : List Char} {t : ConnType} {records : List Record}

/-- A process that may be told to own a socket. -/
def Owner (w : World) (filter : List Char) (inode : BitVec 32) (owner : BitVec 32 × List Char) : Prop :=
  ∃ p ∈ w.proc, isStrDigit p.name = true ∧ atoi p.name = owner.1 ∧ commandLine p = owner.2 ∧
    Holds p inode ∧ w.regexec filter owner.2 = true

/-- The row of a record. -/
def Record.row (w : World) (t : ConnType) (r : Record) (owner : Option (BitVec 32 × List Char)) : Row :=
  ⟨t.name, addrText (r.conn w.ntop t).localIp r.localPort,
    addrText (r.conn w.ntop t).rmtIp r.rmtPort, owner⟩

/-- What is told of the sockets of a type: each of them in its turn with an owner that the
filter lets through. One without such an owner is left out, and if there is no filter its row
has none. -/
inductive Told (w : World) (filter : List Char) (t : ConnType) : List Record → List Row → Prop
  | nil : Told w filter t [] []
  | owned {r records owner rows} : Owner w filter r.inode owner → Told w filter t records rows →
      Told w filter t (r :: records) (r.row w t (some owner) :: rows)
  | free {r records rows} : filter = [] → (∀ owner, ¬Owner w filter r.inode owner) →
      Told w filter t records rows → Told w filter t (r :: records) (r.row w t none :: rows)
  | hidden {r records rows} : filter ≠ [] → (∀ owner, ¬Owner w filter r.inode owner) →
      Told w filter t records rows → Told w filter t (r :: records) rows

end Rows

section Output
variable {w : World}

/-- The part of a report that tells of one protocol. -/
def part (flag udp : Bool) (rows : List Row) : List Char := heading flag udp ++ rows.flatMap Row.text

/-- A report: a heading and the rows of both types for each protocol, and an empty line between
the two. -/
def report (tcp udp : Bool) (rows : ConnType → List Row) : List Char :=
  (if tcp then part false false (rows .tcp ++ rows .tcp6) else []) ++
    (if udp then part tcp true (rows .udp ++ rows .udp6) else [])

end Output

section Demo

/-- A process that has the socket of the one connection. -/
def demoHolder : ProcEntry :=
  ⟨"7", some [⟨"3", some "socket:[12345]".toList⟩], some "cupsd\x00-f".toList⟩

def demoFiles (name : String) : Option (List Char) :=
  if name = "/proc/net/tcp" then some ("  sl  local_address".toList ++ '\n' :: demoLine.text)
  else if name = "/proc/net/tcp6" then some "  sl  local_address\n".toList
  else none

/-- The process 8 is someone else's. -/
def demoWorld : World where
  files := demoFiles
  proc := [demoHolder, ⟨"8", none, none⟩]
  room := 1017
  ntop _ bytes := ['.'].intercalate (bytes.map fun b => Nat.toDigits 10 b.toNat)
  regcomp _ := true
  regexec := exactRegexec
  stack _ := ⟨fun _ => 7, fun _ => 7, 7, 7, 7⟩
  stale _ := 0

end Demo

/-- The output depends on the options that stand in some word and on the first operand, wherever
they are. -/
theorem main_order (w : World) (argv0 : List Char) {args args' : List (List Char)}
    (ended : ['-', '-'] ∉ args) (ended' : ['-', '-'] ∉ args')
    (options : ∀ o, (∃ word ∈ args, o ∈ (wordOpts optstring opts word).getD []) ↔
      ∃ word ∈ args', o ∈ (wordOpts optstring opts word).getD [])
    (fine : ∀ word ∈ args, ∀ o ∈ (wordOpts optstring opts word).getD [], Opt.bad o = false)
    (operand : (args.filter fun word => (wordOpts optstring opts word).isNone).headD [] =
      (args'.filter fun word => (wordOpts optstring opts word).isNone).headD []) :
    main w false argv0 args = main w false argv0 args' := by
  let found := args.flatMap fun word => (wordOpts optstring opts word).getD []
  let found' := args'.flatMap fun word => (wordOpts optstring opts word).getD []
  have hsame : ∀ o, o ∈ found ↔ o ∈ found' := by
    intro o
    rw [List.mem_flatMap, List.mem_flatMap]
    exact options o
  have hgood : ∀ o ∈ found, Opt.bad o = false := by
    intro o ho
    obtain ⟨word, hword, ho⟩ := List.mem_flatMap.mp ho
    exact fine word hword o ho
  have hnone : found.find? Opt.bad = none := by
    apply List.find?_eq_none.mpr
    intro o ho
    simp [hgood o ho]
  have hnone' : found'.find? Opt.bad = none := by
    apply List.find?_eq_none.mpr
    intro o ho
    simp [hgood o ((hsame o).mpr ho)]
  have hchoice : chooseTypes (keep true true) found = chooseTypes (keep true true) found' := by
    simp only [chooseTypes_keep, hnone, hnone', hsame]
  have hall : (0xF : BitVec 32) = keep true true := rfl
  rw [main, main, getoptLong_mixed ended, getoptLong_mixed ended']
  dsimp only
  rw [hall, operand, hchoice]

/-- `-t` once or in two words, before the filter or on both sides of it, gives the one row. -/
theorem main_order_demo :
    (main demoWorld false "netstat".toList ["-t".toList, exactly "cupsd -f".toList]).map
        (fun r => (r.2, r.1.reverse.take 9)) = some (0, "cupsd -f\n".toList.reverse) ∧
      main demoWorld false "netstat".toList ["-t".toList, exactly "cupsd -f".toList] =
        main demoWorld false "netstat".toList
          ["--tcp".toList, exactly "cupsd -f".toList, "-t".toList] := by
  have hlong : wordOpts optstring opts "--tcp".toList = some [.code 't'] := rfl
  have hshort : wordOpts optstring opts "-t".toList = some [.code 't'] := rfl
  have hword : wordOpts optstring opts (exactly "cupsd -f".toList) = none := rfl
  refine ⟨by decide +kernel, ?_⟩
  apply main_order
  · decide
  · decide
  · intro o
    simp only [List.mem_cons, List.not_mem_nil, or_false, exists_eq_or_imp, exists_eq_left, hlong,
      hshort, hword, Option.getD_some, Option.getD_none, false_or, or_self]
  · decide
  · rfl

end UnixProgramming.Netstat.Proofs
