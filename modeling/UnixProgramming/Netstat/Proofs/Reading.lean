import Mathlib.Data.Nat.Digits.Defs
import UnixProgramming.Netstat.Proofs.Report
import UnixProgramming.Netstat.Proofs.Cmdline

namespace UnixProgramming.Netstat.Proofs
open Lib

/-- A row whose columns can be told apart. -/
structure Clear (row : Row) : Prop where
  type : ∃ t : ConnType, row.type = t.name
  localAddr : Cell 32 row.localAddr ∧ '\n' ∉ row.localAddr
  rmtAddr : Cell 32 row.rmtAddr ∧ '\n' ∉ row.rmtAddr
  owner : ∀ o ∈ row.owner, '\n' ∉ o.2

section Rows
variable {row : Row}

theorem digits_plain (n : Nat) : ∀ c ∈ Nat.toDigits 10 n, isDigitIn 10 c = true :=
  (toDigits_decimal n).1

end Rows

section Report

end Report

section Fitting
variable {w : World} {filter : List Char} {t : ConnType} {records : List Record} {rows : List Row}

/-- The text of an address leaves room for a port in its column. -/
structure Narrow (ip : List Char) : Prop where
  short : ip.length ≤ 26
  solid : ' ' ∉ ip ∧ '\n' ∉ ip

theorem port_digits (port : BitVec 16) : ∀ c ∈ Nat.toDigits 10 port.toNat, c ≠ ' ' ∧ c ≠ '\n' := by
  intro c hc
  have hdigit := digits_plain port.toNat c hc
  constructor
  · intro he
    subst he
    exact absurd hdigit (by decide)
  · intro he
    subst he
    exact absurd hdigit (by decide)

theorem addrText_cell {ip : List Char} (narrow : Narrow ip) (port : BitVec 16) :
    Cell 32 (addrText ip port) ∧ '\n' ∉ addrText ip port := by
  have hshort := narrow.short
  obtain ⟨hblank, hline⟩ := narrow.solid
  have hlen : (Nat.toDigits 10 port.toNat).length ≤ 5 :=
    Nat.toDigits_length 10 port.toNat 5 (by decide) (by omega)
  have hport := port_digits port
  unfold addrText
  split
  · have hlast : ∀ c ∈ ip ++ ':' :: Nat.toDigits 10 port.toNat, c ≠ ' ' ∧ c ≠ '\n' := by
      intro c hc
      simp only [List.mem_append, List.mem_cons] at hc
      rcases hc with hc | hc | hc
      · exact ⟨fun he => hblank (he ▸ hc), fun he => hline (he ▸ hc)⟩
      · subst hc
        decide
      · exact hport c hc
    refine ⟨⟨?_, fun hm => (hlast _ (List.mem_of_getLast? hm)).1 rfl⟩, fun hm => (hlast _ hm).2 rfl⟩
    rw [List.length_append, List.length_cons]
    omega
  · refine ⟨⟨?_, by simp⟩, by simp [hline]⟩
    rw [List.length_append, List.length_cons, List.length_singleton]
    omega

theorem blanked_newline (c : Char) : blanked c ≠ '\n' := by
  unfold blanked
  split
  · decide
  · next h =>
    intro he
    subst he
    exact h (.inr rfl)

/-- `read_cmdline` leaves a newline at the front only. -/
theorem readCmdline_newline {file : Option (List Char)} {s : List Char}
    (read : readCmdline file = some s) {i : Nat} (behind : 0 < i) : s[i]? ≠ some '\n' := by
  cases file with
  | none => cases read
  | some text =>
    simp only [readCmdline] at read
    split at read
    · cases read
    · next h =>
      cases read
      intro hc
      rw [blankFrom_at (by omega)] at hc
      split at hc
      · obtain ⟨c, -, hblank⟩ := Option.map_eq_some_iff.mp hc
        exact blanked_newline c hblank
      · have hi := (List.getElem?_eq_some_iff.mp hc).1
        omega

theorem commandLine_line {p : ProcEntry} (first : '\n' ∉ (commandLine p).head?) :
    '\n' ∉ commandLine p := by
  intro hm
  obtain ⟨i, hi⟩ := List.mem_iff_getElem?.mp hm
  cases i with
  | zero =>
    rw [← List.head?_eq_getElem?] at hi
    exact first hi
  | succ i =>
    unfold commandLine cString at hi
    obtain ⟨rest, hsplit⟩ := List.takeWhile_prefix (p := (· ≠ '\x00'))
      (l := (readCmdline p.cmdline).getD [])
    have hin : (_ ++ rest)[i + 1]? = _ :=
      List.getElem?_append_left (List.getElem?_eq_some_iff.mp hi).1
    rw [hsplit, hi] at hin
    cases hread : readCmdline p.cmdline with
    | none =>
      rw [hread] at hin
      cases hin
    | some s =>
      rw [hread] at hin
      exact readCmdline_newline hread (Nat.succ_pos i) hin

/-- The addresses of a record leave room for the ports. -/
def Record.Narrow (w : World) (t : ConnType) (r : Record) : Prop :=
  Proofs.Narrow (r.conn w.ntop t).localIp ∧ Proofs.Narrow (r.conn w.ntop t).rmtIp

theorem row_clear {r : Record} {owner : Option (BitVec 32 × List Char)} (narrow : r.Narrow w t)
    (one : ∀ o ∈ owner, '\n' ∉ o.2) : Clear (r.row w t owner) where
  type := ⟨t, rfl⟩
  localAddr := addrText_cell narrow.1 r.localPort
  rmtAddr := addrText_cell narrow.2 r.rmtPort
  owner := one

theorem Told.clear (told : Told w filter t records rows) (narrow : ∀ r ∈ records, r.Narrow w t)
    (firsts : ∀ p ∈ w.proc, '\n' ∉ (commandLine p).head?) : ∀ row ∈ rows, Clear row := by
  induction told with
  | nil => simp
  | @owned r records owner rows howner _ ih =>
    have hrest := ih fun r hr => narrow r (List.mem_cons_of_mem _ hr)
    obtain ⟨p, hp, -, -, hcmd, -, -⟩ := howner
    have hrow : Clear (r.row w t (some owner)) := by
      apply row_clear (narrow r List.mem_cons_self)
      intro o ho
      cases ho
      rw [← hcmd]
      exact commandLine_line (firsts p hp)
    intro row hm
    rcases List.mem_cons.mp hm with he | hm
    · exact he ▸ hrow
    · exact hrest row hm
  | @free r records rows _ _ _ ih =>
    have hrest := ih fun r hr => narrow r (List.mem_cons_of_mem _ hr)
    have hrow : Clear (r.row w t none) :=
      row_clear (narrow r List.mem_cons_self) fun o ho => by cases ho
    intro row hm
    rcases List.mem_cons.mp hm with he | hm
    · exact he ▸ hrow
    · exact hrest row hm
  | hidden _ _ _ ih => exact ih fun r hr => narrow r (List.mem_cons_of_mem _ hr)

end Fitting

end UnixProgramming.Netstat.Proofs
