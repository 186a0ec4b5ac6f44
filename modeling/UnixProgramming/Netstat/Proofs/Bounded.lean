import UnixProgramming.Lib.Lines
import UnixProgramming.Netstat.Proofs.Conns

namespace UnixProgramming.Netstat.Proofs
open Lib

section Suffixes
variable {type : ConnType} {s t : List Char}

theorem scanInto_rest (old : BitVec 32) (c : Scan (BitVec 32)) : (scanInto old c).2 = c.rest := by
  cases c <;> rfl

theorem scanSlot_suffix (h : scanSlot s = some t) : s ≠ [] ∧ t <:+ s := by
  have hnumber := scanUnsigned_suffix 10 none s
  constructor
  · intro he
    subst he
    cases h
  · unfold scanSlot at h
    split at h
    · cases h
    · rename_i hs
      rw [hs] at hnumber
      cases h
      exact hnumber
    · rename_i rest hs
      rw [hs] at hnumber
      have hcolon := scanLit_suffix ':' rest
      split at h
      · rename_i hlit
        rw [hlit] at hcolon
        cases h
        exact hcolon.trans hnumber
      · rename_i hlit
        rw [hlit] at hcolon
        cases h
        exact hcolon.trans hnumber
      · cases h
        exact List.nil_suffix

theorem scanAddr_suffix (k i : Nat) (ip : Nat → BitVec 32) (s : List Char) :
    (scanAddr k i ip s).2 <:+ s := by
  induction k generalizing i ip s with
  | zero => exact List.suffix_rfl
  | succ k ih =>
    have hword := scanUnsigned_suffix 16 (some 8) s
    rw [← scanInto_rest (ip i)] at hword
    exact (ih (i + 1) _ _).trans hword

theorem scanPort_suffix (old : BitVec 32) (s : List Char) : (scanPort old s).2 <:+ s := by
  have hcolon := scanLit_suffix ':' s
  unfold scanPort
  split
  · rename_i rest hlit
    rw [hlit] at hcolon
    rw [scanInto_rest]
    exact (scanUnsigned_suffix 16 (some 4) rest).trans hcolon
  · rename_i hlit
    rw [hlit] at hcolon
    exact hcolon
  · exact List.nil_suffix

theorem skipWords_within (n : Nat) (within : LinesWithin 510 s) :
    ∃ t, skipWords n s = some t ∧ t <:+ s := by
  induction n generalizing s with
  | zero => exact ⟨s, rfl, List.suffix_rfl⟩
  | succ n ih =>
    have hword := scanWord_suffix s
    rw [skipWords]
    cases hs : scanWord s with
    | got word rest =>
      rw [hs] at hword
      have hfits := scanWord_within within hs
      obtain ⟨t, ht, hsuffix⟩ := ih (within.suffix hword)
      dsimp only
      rw [if_neg (by omega)]
      exact ⟨t, ht, hsuffix.trans hword⟩
    | mismatch rest =>
      rw [hs] at hword
      obtain ⟨t, ht, hsuffix⟩ := ih (within.suffix hword)
      exact ⟨t, ht, hsuffix.trans hword⟩
    | eof =>
      obtain ⟨t, ht, hsuffix⟩ := ih (within.suffix List.nil_suffix)
      exact ⟨t, ht, hsuffix.trans List.nil_suffix⟩

/-- Whatever a round finds, it ends behind a line. -/
theorem scanConn_within (type : ConnType) (v : ConnVars) (within : LinesWithin 510 s) :
    ∃ v' rest, scanConn type v s = some (v', rest) ∧ rest <:+ s ∧
      (rest = [] ∨ lineCount rest + 1 ≤ lineCount s) := by
  let s₁ := (scanAddr type.words 0 v.localIp s).2
  let s₂ := (scanPort v.localPort s₁).2
  let s₃ := (scanAddr type.words 0 v.rmtIp s₂).2
  let s₄ := (scanPort v.rmtPort s₃).2
  have h₁ : s₁ <:+ s := scanAddr_suffix _ _ _ _
  have h₂ : s₂ <:+ s := (scanPort_suffix _ _).trans h₁
  have h₃ : s₃ <:+ s := (scanAddr_suffix _ _ _ _).trans h₂
  have h₄ : s₄ <:+ s := (scanPort_suffix _ _).trans h₃
  obtain ⟨s₅, hwords, h₅⟩ := skipWords_within 6 (within.suffix h₄)
  have hnumber := scanUnsigned_suffix 10 none s₅
  have h₆ : (scanUnsigned 10 none s₅).rest <:+ s := hnumber.trans (h₅.trans h₄)
  have hinode := scanInto_rest v.inode (scanUnsigned 10 none s₅)
  let v' : ConnVars :=
    ⟨(scanAddr type.words 0 v.localIp s).1, (scanAddr type.words 0 v.rmtIp s₂).1,
      (scanPort v.localPort s₁).1, (scanPort v.rmtPort s₃).1,
      (scanInto v.inode (scanUnsigned 10 none s₅)).1⟩
  unfold scanConn
  dsimp only
  rw [show skipWords 6 _ = some s₅ from hwords]
  dsimp only
  rw [hinode]
  by_cases he : (scanUnsigned 10 none s₅).rest = []
  · rw [he]
    exact ⟨v', [], rfl, List.nil_suffix, .inl rfl⟩
  · obtain ⟨got, rest, hline, hsuffix, hcount⟩ := fgets_within (within.suffix h₆)
      (by decide : 510 + 1 < 512) he
    rw [hline]
    have hmono := lineCount_suffix h₆
    exact ⟨v', rest, rfl, hsuffix.trans h₆, .inr (by omega)⟩

end Suffixes

section Loop
variable {ntop : Bool → List Byte → List Char} {type : ConnType} {s : List Char}

/-- Each round takes a line, so it ends, and with room for an entry a line it stays in the list. -/
theorem connLoop_within (fuel : Nat) (v : ConnVars) (list : List Conn) (within : LinesWithin 510 s)
    (enough : lineCount s < fuel) (room : list.length + lineCount s ≤ MAX_CONN_NUM) :
    ∃ new, connLoop ntop type fuel v s list = some (list ++ new) ∧ new.length ≤ lineCount s := by
  induction fuel generalizing s v list with
  | zero => omega
  | succ fuel ih =>
    rw [connLoop]
    cases hslot : scanSlot s with
    | none => exact ⟨[], by simp, Nat.zero_le _⟩
    | some t =>
      obtain ⟨some_, hsuffix⟩ := scanSlot_suffix hslot
      have hpos := lineCount_pos some_
      have hmono := lineCount_suffix hsuffix
      obtain ⟨v', rest, hconn, hrest, hless⟩ := scanConn_within type v (within.suffix hsuffix)
      have hcount : lineCount rest + 1 ≤ lineCount s := by
        rcases hless with he | hless
        · rw [he, lineCount_nil]
          omega
        · omega
      dsimp only
      rw [hconn]
      dsimp only
      rw [if_neg (by omega)]
      obtain ⟨new, hrun, hnew⟩ := ih v' (list ++ [connOf ntop type v'])
        (within.suffix (hrest.trans hsuffix)) (by omega)
        (by rw [List.length_append, List.length_singleton]; omega)
      refine ⟨connOf ntop type v' :: new, ?_, ?_⟩
      · rw [hrun, List.append_assoc, List.singleton_append]
      · rw [List.length_cons]
        omega

end Loop

/-- On a file with any text whose lines are shorter than 511 characters, and of which at most
`MAX_CONN_NUM` are behind the first, `read_conn` ends, stays in its buffers and lists at most an
entry for each line behind the first. -/
theorem readConn_within (ntop : Bool → List Byte → List Char) (files : String → Option (List Char))
    (stack : ConnVars) (type : ConnType) (text : List Char) (within : LinesWithin 510 text)
    (few : lineCount text ≤ MAX_CONN_NUM + 1) (file : files ("/proc/net/" ++ type.name) = some text) :
    ∃ list, readConn ntop files stack type = some list ∧ list.length ≤ lineCount text - 1 := by
  rw [readConn, file]
  dsimp only
  by_cases he : text = []
  · subst he
    exact ⟨[], rfl, Nat.le_refl 0⟩
  · obtain ⟨got, rest, hline, hsuffix, hcount⟩ := fgets_within within (by decide : 510 + 1 < 512) he
    have hlen := lineCount_length rest
    rw [hline]
    dsimp only
    obtain ⟨list, hrun, hlist⟩ := connLoop_within (rest.length + 1) stack [] (within.suffix hsuffix)
      (by omega) (by rw [List.length_nil]; omega)
    exact ⟨list, hrun, by omega⟩

/-- Two lines without any of the numbers. -/
theorem readConn_within_demo : ∃ list, readConn (fun _ _ => []) (fun _ => some "sl\n7: ?\n\n".toList)
    ⟨fun _ => 7, fun _ => 7, 7, 7, 7⟩ .tcp6 = some list ∧ list.length ≤ 2 :=
  readConn_within _ _ _ .tcp6 "sl\n7: ?\n\n".toList (linesWithin_length (by decide)) (by decide) rfl

end UnixProgramming.Netstat.Proofs
