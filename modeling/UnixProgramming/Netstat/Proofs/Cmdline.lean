import UnixProgramming.Netstat.Cmdline

namespace UnixProgramming.Netstat.Proofs
open Lib

/-- A byte of the command line as it is shown. -/
def blanked (c : Char) : Char := if c = '\x00' ∨ isSpace c then ' ' else c

/-- `read_cmdline` ends, within the buffer, and leaves the first 511 bytes of `text` there, blanks
for what separates words, and a zero behind them. -/
def ReadsCmdline (stale : CmdBuf) (text : List Char) : Prop :=
  ∃ fuel b, readCmdlineBuf fuel stale text = .ok b ∧
    (∀ i c, i < 511 → text[i]? = some c → b[i]? = some (if i = 0 then c else blanked c)) ∧
    b[min text.length 511]? = some '\x00'

section Loop
variable {b b' : CmdBuf} {n : Nat} {i : Int} {c : Char}

theorem at_ok (h : n < 512) : b.at n = .ok b[n] := by
  have hi : (0 : Int) ≤ n ∧ (n : Int) < 512 := by omega
  rw [CmdBuf.at, dif_pos hi]
  rfl

theorem put_ok (h : n < 512) : b.put n c = .ok (b.set n c) := by
  have hi : (0 : Int) ≤ n ∧ (n : Int) < 512 := by omega
  rw [CmdBuf.put, dif_pos hi]
  rfl

theorem at_out (h : i < 0 ∨ 512 ≤ i) : b.at i = .error .bounds := by
  rw [CmdBuf.at, dif_neg (by omega)]

theorem put_out (h : i < 0 ∨ 512 ≤ i) : b.put i c = .error .bounds := by
  rw [CmdBuf.put, dif_neg (by omega)]

/-- One round of the loop. -/
theorem blankLoop_succ {fuel : Nat} (h : n + 1 < 512) :
    blankLoop (fuel + 1) (n + 2 : Nat) b =
      blankLoop fuel (n + 1 : Nat) (b.set (n + 1) (blanked b[n + 1])) := by
  have hdown : ((n + 2 : Nat) : Int) - 1 = (n + 1 : Nat) := by omega
  have hne : ¬((n + 1 : Nat) : Int) = 0 := by omega
  have hget : b.at (n + 1 : Nat) = .ok b[n + 1] := at_ok h
  have hput : b.put (n + 1 : Nat) ' ' = .ok (b.set (n + 1) ' ') := put_ok h
  rw [blankLoop]
  simp only [hdown, hne, if_false, hget, bind, Except.bind]
  by_cases hc : b[n + 1] = '\x00' || isSpace b[n + 1]
  · have hb : blanked b[n + 1] = ' ' := if_pos (by simpa using hc)
    simp only [hc, if_true, hput, hb]
  · have hb : blanked b[n + 1] = b[n + 1] := if_neg (by simpa using hc)
    simp only [hc, hb, Vector.set_getElem_self]
    rfl

/-- The loop ends, and what lies below its start is blanked except for the first byte. -/
theorem blankLoop_ok (h : n < 512) (b : CmdBuf) :
    ∃ b', blankLoop (n + 1) (n + 1 : Nat) b = .ok b' ∧
      ∀ i : Nat, b'[i]? = if 0 < i ∧ i ≤ n then b[i]?.map blanked else b[i]? := by
  induction n generalizing b with
  | zero =>
    refine ⟨b, rfl, ?_⟩
    intro i
    rw [if_neg (by omega)]
  | succ n ih =>
    obtain ⟨b', hrun, hb'⟩ := ih (by omega) (b.set (n + 1) (blanked b[n + 1]))
    refine ⟨b', ?_, ?_⟩
    · rw [blankLoop_succ h]
      exact hrun
    · intro i
      rw [hb', Vector.getElem?_set]
      by_cases hi : n + 1 = i
      · subst hi
        rw [if_neg (by omega), if_pos rfl, if_pos (by omega), Vector.getElem?_eq_getElem h]
        rfl
      · rw [if_neg hi]
        by_cases hlow : 0 < i ∧ i ≤ n
        · rw [if_pos hlow, if_pos (by omega)]
        · rw [if_neg hlow, if_neg (by omega)]

end Loop

section Reading
variable {stale : CmdBuf} {text : List Char}

/-- What `fread` leaves where the file has a byte. -/
theorem fread_at {i : Nat} {c : Char} (hi : i < 512) (hc : text[i]? = some c) :
    (stale.fread text).1[i]? = some c := by
  simp [CmdBuf.fread, hi, hc]

/-- A command line that fits is read with its first byte as it is and the others blanked. -/
theorem readCmdlineBuf_fits (stale : CmdBuf) (some_ : 1 ≤ text.length)
    (fits : text.length ≤ 511) :
    ∃ b, readCmdlineBuf text.length stale text = .ok b ∧
      (∀ i c, text[i]? = some c → b[i]? = some (if i = 0 then c else blanked c)) ∧
      b[text.length]? = some '\x00' := by
  obtain ⟨n, hn⟩ := Nat.exists_eq_add_of_le' some_
  obtain ⟨b, hrun, hb⟩ := blankLoop_ok (n := n) (by omega)
    ((stale.fread text).1.set text.length '\x00')
  have hcount : (stale.fread text).2 = (text.length : Nat) := by
    show min (text.length : Int) 512 = (text.length : Int)
    omega
  have hput : (stale.fread text).1.put (text.length : Nat) '\x00' =
      .ok ((stale.fread text).1.set text.length '\x00') := put_ok (by omega)
  refine ⟨b, ?_, ?_, ?_⟩
  · rw [← hn] at hrun
    simp only [readCmdlineBuf, bind, Except.bind, hcount, hput, hrun]
  · intro i c hc
    have hi : i < text.length := (List.getElem?_eq_some_iff.mp hc).1
    rw [hb, Vector.getElem?_set_ne _ (by omega), fread_at (by omega) hc]
    by_cases h0 : i = 0
    · simp [h0]
    · rw [if_pos (by omega), if_neg h0]
      rfl
  · rw [hb, if_neg (by omega), Vector.getElem?_set_self]

/-- Without a byte the loop begins in front of the buffer. -/
theorem readCmdlineBuf_empty (fuel : Nat) (b : CmdBuf) :
    readCmdlineBuf fuel stale [] ≠ .ok b := by
  have hput : (stale.fread []).1.put (0 : Nat) '\x00' = .ok _ := put_ok (by omega)
  have hout : ∀ b : CmdBuf, b.at (0 - 1) = .error .bounds := fun _ => at_out (.inl (by omega))
  have hcount : (stale.fread []).2 = (0 : Nat) := rfl
  simp only [readCmdlineBuf, bind, Except.bind, hcount, hput]
  cases fuel with
  | zero => simp [blankLoop]
  | succ fuel =>
    have hne : ¬(0 - 1 : Int) = 0 := by omega
    have hcast : ((0 : Nat) : Int) = 0 := rfl
    simp only [blankLoop, hcast, hne, if_false, hout, bind, Except.bind]
    exact fun h => nomatch h

/-- With 512 bytes the zero goes behind the buffer. -/
theorem readCmdlineBuf_long (long : 512 ≤ text.length) (fuel : Nat) (b : CmdBuf) :
    readCmdlineBuf fuel stale text ≠ .ok b := by
  have hcount : (stale.fread text).2 = (512 : Int) := by
    show min (text.length : Int) 512 = 512
    omega
  have hput : (stale.fread text).1.put 512 '\x00' = .error .bounds := put_out (.inr (by omega))
  simp only [readCmdlineBuf, bind, Except.bind, hcount, hput]
  exact fun h => nomatch h

theorem readCmdlineBuf_ok (stale : CmdBuf) (text : List Char) :
    (∃ fuel b, readCmdlineBuf fuel stale text = .ok b) ↔ 1 ≤ text.length ∧ text.length ≤ 511 := by
  constructor
  · rintro ⟨fuel, b, h⟩
    constructor
    · by_contra hzero
      have he : text = [] := List.length_eq_zero_iff.mp (by omega)
      subst he
      exact readCmdlineBuf_empty fuel b h
    · by_contra hlong
      exact readCmdlineBuf_long (by omega) fuel b h
  · rintro ⟨some_, fits⟩
    obtain ⟨b, hrun, -⟩ := readCmdlineBuf_fits stale some_ fits
    exact ⟨_, b, hrun⟩

/-- `read_cmdline` does its work for the command lines of 1 to 511 bytes. -/
theorem readCmdline_reads (stale : CmdBuf) (text : List Char) :
    ReadsCmdline stale text ↔ 1 ≤ text.length ∧ text.length ≤ 511 := by
  constructor
  · rintro ⟨fuel, b, hrun, -⟩
    exact (readCmdlineBuf_ok stale text).mp ⟨fuel, b, hrun⟩
  · rintro ⟨some_, fits⟩
    obtain ⟨b, hrun, hbytes, hend⟩ := readCmdlineBuf_fits stale some_ fits
    refine ⟨_, b, hrun, fun i c _ hc => hbytes i c hc, ?_⟩
    rw [Nat.min_eq_left fits]
    exact hend

/-- A process that was started without even an `argv[0]`. -/
theorem readCmdline_overruns : ¬ReadsCmdline (.replicate 512 '\x00') [] := by
  rintro ⟨fuel, b, hrun, -⟩
  exact readCmdlineBuf_empty fuel b hrun

end Reading

section Lists
variable {stale : CmdBuf} {text : List Char}

/-- `blankFrom` on the list of the bytes read is the loop on the buffer. -/
theorem blankFrom_at {n : Nat} {s : List Char} (h : n < s.length) (i : Nat) :
    (blankFrom n s)[i]? = if 0 < i ∧ i ≤ n then s[i]?.map blanked else s[i]? := by
  induction n generalizing s with
  | zero => rw [blankFrom, if_neg (by omega)]
  | succ n ih =>
    have hround : blankFrom (n + 1) s = blankFrom n (s.set (n + 1) (blanked s[n + 1])) := by
      rw [blankFrom, List.getD_eq_getElem?_getD, List.getElem?_eq_getElem h, Option.getD_some]
      by_cases hc : s[n + 1] = '\x00' ∨ isSpace s[n + 1]
      · rw [if_pos hc, blanked, if_pos hc]
      · rw [if_neg hc, blanked, if_neg hc, List.set_getElem_self]
    rw [hround, ih (by rw [List.length_set]; omega), List.getElem?_set]
    by_cases hi : n + 1 = i
    · subst hi
      rw [if_neg (by omega), if_pos rfl, if_pos h, if_pos (by omega), List.getElem?_eq_getElem h]
      rfl
    · rw [if_neg hi]
      by_cases hlow : 0 < i ∧ i ≤ n
      · rw [if_pos hlow, if_pos (by omega)]
      · rw [if_neg hlow, if_neg (by omega)]

/-- `readCmdline` is what the bytes of the buffer come to, and fails where the buffer is left. -/
theorem readCmdline_buffer (stale : CmdBuf) (text : List Char) :
    (∀ l, readCmdline (some text) = some l →
      ∃ fuel b, readCmdlineBuf fuel stale text = .ok b ∧ b.toList.take text.length = l) ∧
    (readCmdline (some text) = none → ∀ fuel b, readCmdlineBuf fuel stale text ≠ .ok b) := by
  by_cases hlen : 1 ≤ text.length ∧ text.length ≤ 511
  · have htake : text.take 512 = text := List.take_of_length_le (by omega)
    have hread : readCmdline (some text) = some (blankFrom (text.length - 1) text) := by
      rw [readCmdline, htake]
      exact if_neg (by omega)
    rw [hread]
    refine ⟨?_, by simp⟩
    intro l hl
    cases hl
    obtain ⟨b, hrun, hbytes, -⟩ := readCmdlineBuf_fits stale hlen.1 hlen.2
    refine ⟨_, b, hrun, ?_⟩
    apply List.ext_getElem?
    intro i
    rw [blankFrom_at (by omega), List.getElem?_take]
    cases hc : text[i]? with
    | none =>
      have hi : text.length ≤ i := List.getElem?_eq_none_iff.mp hc
      rw [if_neg (by omega)]
      simp
    | some c =>
      have hi : i < text.length := (List.getElem?_eq_some_iff.mp hc).1
      have hb := hbytes i c hc
      rw [if_pos hi, Vector.getElem?_toList, hb]
      by_cases h0 : i = 0
      · simp [h0]
      · rw [if_neg h0, if_pos (by omega)]
        rfl
  · have hread : readCmdline (some text) = none := by
      rw [readCmdline]
      apply if_pos
      rw [List.length_take]
      omega
    rw [hread]
    constructor
    · intro l h
      cases h
    · intro _ fuel b hrun
      exact hlen ((readCmdlineBuf_ok stale text).mp ⟨fuel, b, hrun⟩)

end Lists

end UnixProgramming.Netstat.Proofs
