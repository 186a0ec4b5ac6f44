import UnixProgramming.Sdb.Proofs.Disasm
import UnixProgramming.Sdb.Proofs.Relocation

namespace UnixProgramming.Sdb.Proofs
open Lib

/-- Two 64-bit values' difference after it is stored in an `int`. -/
def intDiff (x y : Word) : Int := Int.bmod (x.toInt - y.toInt) (2 ^ 32)

/-- The part of the file that a window asks for lies in the section, and its count
is one the buffer has room for. -/
def Within (stext : Shdr) : Option (BitVec 32 × BitVec 32) → Prop
  | none => True
  | some (offset, count) => 0 ≤ count.toInt ∧ count.toInt ≤ 160 ∧
      stext.offset.toInt ≤ offset.toInt ∧
      offset.toInt + count.toInt ≤ (stext.offset + stext.size).toInt

/-- What `disasm` does in LOADED behind its two tests. -/
def disasmFile {σ : Type} (H : Host σ) (d : Debugger) (ptext : Phdr) (stext : Shdr) (a : Word) :
    DbgM σ Unit :=
  match disasmWindow ptext stext a with
  | none => errmsg "address out of range."
  | some window => do
    let code ← fileCode H d window
    showCode H code a

section Loaded
variable {σ : Type} {H : Host σ} {w : World σ} {ptext : Phdr} {stext : Shdr} {a : Word}
  {word : String} {argv : List String}

theorem disasm_loaded (loaded : w.dbg.stat = .loaded) (segment : w.dbg.ptextHdr = some ptext)
    (text : w.dbg.stextHdr = some stext) (found : lookup H.list word = some .disasm)
    (given : argv ≠ [] ∨ w.dbg.ldisasm ≠ 0)
    (at_ : (argv.head?.map strtoll).getD w.dbg.ldisasm = a) :
    handle H (.line (word :: argv)) w = disasmFile H w.dbg ptext stext a w := by
  rw [handle, exec_found H 2 found, disasmFile, ← at_]
  cases argv with
  | nil =>
    have hl : w.dbg.ldisasm ≠ 0#64 := by simpa using given
    simp [Builtin.exec, cmdDisasm, bind, EStateM.bind, dbg, loaded, segment, text, hl, deref]
    rfl
  | cons text' rest =>
    have hlen : ¬rest.length + 1 + 1 < 2 := by omega
    simp [Builtin.exec, cmdDisasm, bind, EStateM.bind, dbg, loaded, segment, text, hlen, deref]
    rfl

end Loaded

section Narrow
variable {ptext : Phdr} {stext : Shdr} {a : Word}

theorem toInt_cut (x : Word) : (x.setWidth 32).toInt = Int.bmod x.toInt (2 ^ 32) := by
  rw [BitVec.toInt_setWidth, BitVec.toInt_eq_toNat_bmod, Int.bmod_bmod_of_dvd (by decide)]

theorem toInt_cut_sub (x y : Word) : ((x - y).setWidth 32).toInt = intDiff x y := by
  rw [toInt_cut, BitVec.toInt_sub, Int.bmod_bmod_of_dvd (by decide), intDiff]

/-- A value stored in an `int` is off by a multiple of `2 ^ 32`. -/
theorem exists_bmod (x : Int) :
    ∃ k, Int.bmod x (2 ^ 32) = x + 2 ^ 32 * k ∧ -2 ^ 31 ≤ x + 2 ^ 32 * k ∧ x + 2 ^ 32 * k < 2 ^ 31 := by
  have hlow := Int.le_bmod (x := x) (m := 2 ^ 32) (by decide)
  have hhigh := Int.bmod_lt (x := x) (m := 2 ^ 32) (by decide)
  have hdef := Int.bmod_def x (2 ^ 32)
  have hdiv := Int.emod_add_mul_ediv x (2 ^ 32)
  by_cases h : x % (2 ^ 32 : Nat) < ((2 ^ 32 : Nat) + 1) / 2
  · rw [if_pos h] at hdef
    exact ⟨-(x / 2 ^ 32), by omega, by omega, by omega⟩
  · rw [if_neg h] at hdef
    exact ⟨-(x / 2 ^ 32) - 1, by omega, by omega, by omega⟩

/-- The offset and the count of `disasm` as integers. -/
theorem window_spec (ptext : Phdr) (stext : Shdr) (a : Word) (o : Int)
    (ho : o = intDiff a ptext.vaddr) :
    if o < stext.offset.toInt then disasmWindow ptext stext a = none
    else ∃ offset count, disasmWindow ptext stext a = some (offset, count) ∧ offset.toInt = o ∧
      count.toInt =
        if (stext.offset + stext.size).toInt < Int.bmod (o + 160) (2 ^ 32) then
          Int.bmod ((stext.offset + stext.size).toInt - o) (2 ^ 32)
        else 160 := by
  have hoff := toInt_cut_sub a ptext.vaddr
  have hadd : ((a - ptext.vaddr).setWidth 32 + 160 : BitVec 32).toInt = Int.bmod (o + 160) (2 ^ 32) := by
    rw [BitVec.toInt_add, hoff, ← ho]
    rfl
  have hcut : ((stext.offset + stext.size -
      ((a - ptext.vaddr).setWidth 32).signExtend 64).setWidth 32).toInt =
        Int.bmod ((stext.offset + stext.size).toInt - o) (2 ^ 32) := by
    rw [toInt_cut_sub, intDiff, BitVec.toInt_signExtend_of_le (by decide), hoff, ← ho]
  split
  · rename_i hlt
    simp only [disasmWindow, hoff, ← ho, if_pos hlt]
  · rename_i hlt
    simp only [disasmWindow, hoff, ← ho, if_neg hlt, hadd]
    split
    · exact ⟨_, _, rfl, hoff.trans ho.symm, hcut⟩
    · exact ⟨_, _, rfl, hoff.trans ho.symm, rfl⟩

/-- The window of `disasm` is rejected, or lies in the section as long as its offset does and
the sum that is compared with the end of the section stays an `int`. -/
theorem window_within_iff : Within stext (disasmWindow ptext stext a) ↔
    intDiff a ptext.vaddr < stext.offset.toInt ∨
      intDiff a ptext.vaddr ≤ (stext.offset + stext.size).toInt ∧
        (intDiff a ptext.vaddr + 160 < 2 ^ 31 ∨
          intDiff a ptext.vaddr + 160 ≤ (stext.offset + stext.size).toInt) := by
  have hspec := window_spec ptext stext a _ rfl
  obtain ⟨j, hj, hlow, hhigh⟩ := exists_bmod (a.toInt - ptext.vaddr.toInt)
  rw [← hj, ← intDiff] at hlow hhigh
  unfold Within
  generalize intDiff a ptext.vaddr = o at hspec hlow hhigh ⊢
  generalize (stext.offset + stext.size).toInt = e at hspec ⊢
  split at hspec
  · rename_i hlt
    rw [hspec]
    exact ⟨fun _ => .inl hlt, fun _ => trivial⟩
  · rename_i hlt
    obtain ⟨offset, count, hw, ho, hc⟩ := hspec
    rw [hw]
    dsimp only
    obtain ⟨k, hk, hklow, hkhigh⟩ := exists_bmod (o + 160)
    obtain ⟨l, hl, hllow, hlhigh⟩ := exists_bmod (e - o)
    rw [ho, hc, hk, hl]
    split <;> omega

end Narrow

/-- The section lies in the segment, at the same distance from its start in the file and in
memory, and neither runs over the end. -/
structure Inside (ptext : Phdr) (stext : Shdr) : Prop where
  lead : ∃ k, stext.offset.toNat = ptext.offset.toNat + k ∧
    stext.addr.toNat = ptext.vaddr.toNat + k ∧ k + stext.size.toNat ≤ ptext.filesz.toNat
  file : ptext.offset.toNat + ptext.filesz.toNat < 2 ^ 63
  memory : ptext.vaddr.toNat + ptext.filesz.toNat ≤ 2 ^ 64

section Right
variable {ptext : Phdr} {stext : Shdr} {a : Word}

end Right

section Shown
variable {σ : Type} {H : Host σ} {w w' : World σ} {ptext : Phdr} {stext : Shdr} {a : Word}
  {data code : List Byte} {decoder : List Byte → Word → List Insn} {offset count : BitVec 32}

end Shown

/-- A program linked in one segment from the start of its file. -/
def whole : Phdr := Demo.segment (PF_R ||| PF_X) 0 0x2000

/-- The segment of a program whose code is linked apart from its headers. -/
def apart : Phdr := Demo.segment (PF_R ||| PF_X) 0x1000 0x1000

/-- The prompt after `load` of a program with the segments `segments`. -/
theorem exists_loaded (segments : List Phdr) (ptext : Phdr)
    (h : (runAll (handle (Demo.host (Demo.pie segments))) (fun _ _ _ => true) [.line ["load", "demo"]]
      (World.init (Demo.machine (Demo.pieProgram Demo.nops)))).any
        (checkLoaded · segments ptext) = true) :
    ∃ w : World (Machine Demo.Hidden),
      Reached (handle (Demo.host (Demo.pie segments))) (fun _ _ _ => True)
        (World.init (Demo.machine (Demo.pieProgram Demo.nops))) w ∧
      w.dbg.stat = .loaded ∧ w.dbg.ptextHdr = some ptext ∧
      w.dbg.stextHdr = some (Demo.text 0x1000 0x10) := by
  obtain ⟨w, hw, hs⟩ := exists_run _ _ _ _ h
  obtain ⟨loaded, segment, text, _⟩ := checked_loaded hs
  exact ⟨w, hw, loaded, segment, text⟩

/-- `disasm` of a loaded program asks for a part of the section that fits its buffer, or rejects
the address, exactly when the address is not beyond the end of the section and the sum that is
compared with that end stays an `int`. -/
theorem disasm_within_iff {σ : Type} (H : Host σ) (w : World σ) (loaded : w.dbg.stat = .loaded)
    (ptext : Phdr) (stext : Shdr) (segment : w.dbg.ptextHdr = some ptext)
    (text : w.dbg.stextHdr = some stext) (word : String) (argv : List String)
    (found : lookup H.list word = some .disasm) (a : Word)
    (given : argv ≠ [] ∨ w.dbg.ldisasm ≠ 0)
    (at_ : (argv.head?.map strtoll).getD w.dbg.ldisasm = a) :
    handle H (.line (word :: argv)) w = disasmFile H w.dbg ptext stext a w ∧
      (Within stext (disasmWindow ptext stext a) ↔
        intDiff a ptext.vaddr < stext.offset.toInt ∨
          intDiff a ptext.vaddr ≤ (stext.offset + stext.size).toInt ∧
            (intDiff a ptext.vaddr + 160 < 2 ^ 31 ∨
              intDiff a ptext.vaddr + 160 ≤ (stext.offset + stext.size).toInt)) :=
  ⟨disasm_loaded loaded segment text found given at_, window_within_iff⟩

/-- The last four bytes of a section of sixteen. -/
theorem disasm_within_demo : ∃ w : World (Machine Demo.Hidden),
    handle (Demo.host (Demo.pie [whole])) (.line ["disasm", "0x100c"]) w =
        disasmFile (Demo.host (Demo.pie [whole])) w.dbg whole (Demo.text 0x1000 0x10) 0x100c w ∧
      Within (Demo.text 0x1000 0x10) (disasmWindow whole (Demo.text 0x1000 0x10) 0x100c) := by
  obtain ⟨w, _, loaded, segment, text⟩ := exists_loaded [whole] whole (by decide +kernel)
  have hat : strtoll "0x100c" = 0x100c := by decide
  obtain ⟨ran, hiff⟩ := disasm_within_iff (Demo.host (Demo.pie [whole])) w loaded whole _ segment
    text "disasm" ["0x100c"] (lookup_name _ .disasm) 0x100c (.inl (by simp)) hat
  exact ⟨w, ran, hiff.mpr (.inr ⟨by decide, .inl (by decide)⟩)⟩

/-- Sixteen bytes behind the end of the section `disasm` asks for minus sixteen bytes. -/
theorem disasm_beyond_section : ∃ w : World (Machine Demo.Hidden),
    Reached (handle (Demo.host (Demo.pie [whole]))) (fun _ _ _ => True)
      (World.init (Demo.machine (Demo.pieProgram Demo.nops))) w ∧
    w.dbg.stat = .loaded ∧ w.dbg.ptextHdr = some whole ∧
    w.dbg.stextHdr = some (Demo.text 0x1000 0x10) ∧
    handle (Demo.host (Demo.pie [whole])) (.line ["disasm", "0x1020"]) w =
      disasmFile (Demo.host (Demo.pie [whole])) w.dbg whole (Demo.text 0x1000 0x10) 0x1020 w ∧
    disasmWindow whole (Demo.text 0x1000 0x10) 0x1020 = some (0x1020, -16) ∧
    ¬Within (Demo.text 0x1000 0x10) (disasmWindow whole (Demo.text 0x1000 0x10) 0x1020) := by
  obtain ⟨w, hw, loaded, segment, text⟩ := exists_loaded [whole] whole (by decide +kernel)
  have window : disasmWindow whole (Demo.text 0x1000 0x10) 0x1020 = some (0x1020, -16) := by decide
  have hat : strtoll "0x1020" = 0x1020 := by decide
  refine ⟨w, hw, loaded, segment, text, ?_, window, ?_⟩
  · exact disasm_loaded loaded segment text (lookup_name _ .disasm) (.inl (by simp)) hat
  · intro within
    rw [window] at within
    exact absurd within.1 (by decide)

end UnixProgramming.Sdb.Proofs
