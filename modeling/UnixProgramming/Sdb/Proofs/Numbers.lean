import UnixProgramming.Lib.Numeral
import UnixProgramming.Sdb.Proofs.Lifetime
import UnixProgramming.Sdb.Proofs.Store

namespace UnixProgramming.Sdb.Proofs
open Lib

/-- Which argument a command reads as a number, and in which base; zero stands for the prefixes
of C. -/
def numeric : Builtin → Option (Nat × Nat)
  | .delete => some (1, 10)
  | .break | .dump | .disasm => some (1, 0)
  | .set => some (2, 0)
  | _ => none

/-- The command has no use for the number in this state. `args` stands before the number. -/
def Refuses (H : Host σ) (w : World σ) (b : Builtin) (args : List String) (n : Int) : Prop :=
  match b with
  | .delete => ∀ p ∈ w.dbg.bp, p.id ≠ BitVec.ofInt 32 n
  | .break => w.dbg.stat = .init ∨ ∃ stext, w.dbg.stextHdr = some stext ∧
      ((BitVec.ofInt 64 n < w.dbg.textBegin stext ∨ w.dbg.textEnd stext < BitVec.ofInt 64 n) ∨
        (w.dbg.bpFindByAddr (BitVec.ofInt 64 n)).isSome)
  | .set => w.dbg.stat ≠ .running ∨
      (H.getRegs w.dbg.pid w.os).isSome ∧ ∀ name ∈ args.head?, findReg name = none
  | .dump => w.dbg.stat ≠ .running
  | .disasm => w.dbg.stat = .init ∨ w.dbg.stat = .loaded ∧ ∃ ptext stext,
      w.dbg.ptextHdr = some ptext ∧ w.dbg.stextHdr = some stext ∧
      disasmWindow ptext stext (BitVec.ofInt 64 n) = none
  | _ => False

/-- What a command with a number leaves alone even if it takes the number: a breakpoint is one
write to memory, `set` one write of the registers, and the other two move their cursor. -/
def Spares (H : Host σ) (w w' : World σ) : Builtin → Prop
  | .delete | .break => w'.dbg.ldump = w.dbg.ldump ∧ w'.dbg.ldisasm = w.dbg.ldisasm ∧
      (w'.os = w.os ∨ ∃ addr data, w'.os = (H.poke w.dbg.pid addr data w.os).2)
  | .set => w'.dbg = w.dbg ∧ (w'.os = w.os ∨ ∃ regs, w'.os = (H.setRegs w.dbg.pid regs w.os).2)
  | .dump | .disasm => calm w' = calm w
  | _ => True

section Literal
variable {σ : Type} {H : Host σ} {b : Builtin} {word : String} {args rest : List String}
  {text : String} {base : Nat} {exec : List String → DbgM σ Unit}

theorem numeric_cases (number : numeric b = some (args.length + 1, base)) :
    (b = .delete ∧ args = [] ∧ base = 10) ∨
      ((b = .break ∨ b = .dump ∨ b = .disasm) ∧ args = [] ∧ base = 0) ∨
      (b = .set ∧ (∃ name, args = [name]) ∧ base = 0) := by
  cases b with
  | delete =>
    obtain ⟨hlen, rfl⟩ := Prod.mk.inj (Option.some.inj number)
    exact .inl ⟨rfl, List.length_eq_zero_iff.mp (Nat.succ.inj hlen).symm, rfl⟩
  | «break» | dump | disasm =>
    obtain ⟨hlen, rfl⟩ := Prod.mk.inj (Option.some.inj number)
    exact .inr (.inl ⟨by simp, List.length_eq_zero_iff.mp (Nat.succ.inj hlen).symm, rfl⟩)
  | set =>
    obtain ⟨hlen, rfl⟩ := Prod.mk.inj (Option.some.inj number)
    exact .inr (.inr ⟨rfl, List.length_eq_one_iff.mp (Nat.succ.inj hlen).symm, rfl⟩)
  | _ => cases number

/-- The commands look at the number only. -/
theorem exec_literal (number : numeric b = some (args.length + 1, base)) :
    b.exec H exec (word :: (args ++ text :: rest)) =
      b.exec H exec (word :: (args ++ literal (strtollInt base text.toList) :: rest)) := by
  obtain ⟨rfl, rfl, rfl⟩ | ⟨rfl | rfl | rfl, rfl, rfl⟩ | ⟨rfl, ⟨name, rfl⟩, rfl⟩ :=
    numeric_cases number
  · simp only [Builtin.exec, cmdDelete, List.nil_append, List.getElem?_cons_succ,
      List.getElem?_cons_zero, atoi_literal]
  · simp only [Builtin.exec, cmdBreak, List.nil_append, List.getElem?_cons_succ,
      List.getElem?_cons_zero, strtoll_literal]
  · simp only [Builtin.exec, cmdDump, List.nil_append, List.getElem?_cons_succ,
      List.getElem?_cons_zero, List.length_cons, strtoll_literal]
  · simp only [Builtin.exec, cmdDisasm, List.nil_append, List.getElem?_cons_succ,
      List.getElem?_cons_zero, List.length_cons, strtoll_literal]
  · simp only [Builtin.exec, cmdSet, List.cons_append, List.nil_append, List.getElem?_cons_succ,
      List.getElem?_cons_zero, strtoll_literal]

end Literal

section Effects
variable {σ : Type} {H : Host σ} {text : String} {args : List String}

/-- A refused number changes nothing, and any other only what it is for. -/
def Careful (H : Host σ) (b : Builtin) (args : List String) (n : Int) (c : DbgM σ Unit)
    (w : World σ) : Prop :=
  Wp c (fun _ w' => Spares H w w' b ∧ (Refuses H w b args n → core w' = core w))
    (fun _ _ => ¬Refuses H w b args n) w

theorem delete_careful (word : String) (rest : List String) (w : World σ) :
    Careful H .delete [] (strtollInt 10 text.toList) (cmdDelete H (word :: text :: rest)) w := by
  simp only [Careful, cmdDelete, List.getElem?_cons_succ, List.getElem?_cons_zero, wp_bind, wp_dbg]
  cases hu : unlink (atoi text) w.dbg.bp with
  | none => exact ⟨⟨rfl, rfl, .inl rfl⟩, fun _ => rfl⟩
  | some r =>
    obtain ⟨current, bp⟩ := r
    have taken : ¬Refuses H w .delete [] (strtollInt 10 text.toList) := by
      intro h
      obtain ⟨hid, pre, post, hs, _⟩ := unlink_split hu
      exact h current (by simp [hs]) hid
    simp only [wp_bind, wp_setDbg, bpUnpatch, wp_dbg, wp_ptracePoke, wp_ite, wp_pure, wp_errmsg]
    exact ⟨fun _ => ⟨⟨rfl, rfl, .inr ⟨_, _, rfl⟩⟩, fun h => absurd h taken⟩,
      fun _ => ⟨⟨rfl, rfl, .inr ⟨_, _, rfl⟩⟩, fun h => absurd h taken⟩⟩

theorem break_careful (word : String) (rest : List String) (w : World σ) :
    Careful H .break [] (strtollInt 0 text.toList) (cmdBreak H (word :: text :: rest)) w := by
  simp only [Careful, cmdBreak, List.getElem?_cons_succ, List.getElem?_cons_zero, wp_bind, wp_dbg,
    wp_ite]
  refine ⟨fun _ => ⟨⟨rfl, rfl, .inl rfl⟩, fun _ => rfl⟩, fun hl => ?_⟩
  cases ht : w.dbg.stextHdr with
  | none =>
    rintro (hi | ⟨stext, ht', _⟩)
    · simp [hi] at hl
    · rw [ht] at ht'
      cases ht'
  | some stext =>
    simp only [wp_deref_some, wp_ite]
    refine ⟨fun _ => ⟨⟨rfl, rfl, .inl rfl⟩, fun _ => rfl⟩, fun hr => ⟨fun _ =>
      ⟨⟨rfl, rfl, .inl rfl⟩, fun _ => rfl⟩, fun hf => ?_⟩⟩
    have taken : ¬Refuses H w .break [] (strtollInt 0 text.toList) := by
      rintro (hi | ⟨stext', ht', hout | hset⟩)
      · simp [hi] at hl
      · rw [ht] at ht'
        cases ht'
        exact hr hout
      · exact hf hset
    rw [wp_bind, wp_setDbg, wp_ite]
    refine ⟨fun _ => ?_, fun _ => ⟨⟨rfl, rfl, .inl rfl⟩, fun h => absurd h taken⟩⟩
    simp only [bpPatch, wp_bind, wp_dbg, wp_ptracePeek, wp_ptracePoke, wp_ite, wp_pure, wp_errmsg,
      wp_setDbg]
    exact ⟨fun _ => ⟨⟨rfl, rfl, .inr ⟨_, _, rfl⟩⟩, fun h => absurd h taken⟩,
      fun _ => ⟨⟨rfl, rfl, .inr ⟨_, _, rfl⟩⟩, fun h => absurd h taken⟩⟩

theorem set_careful (word : String) (rest : List String) (name : String) (w : World σ) :
    Careful H .set [name] (strtollInt 0 text.toList) (cmdSet H (word :: name :: text :: rest))
      w := by
  simp only [Careful, cmdSet, List.getElem?_cons_succ, List.getElem?_cons_zero, wp_bind, wp_dbg,
    wp_ite]
  refine ⟨fun _ => ⟨⟨rfl, .inl rfl⟩, fun _ => rfl⟩, fun hr => ?_⟩
  simp only [wp_ptraceGetRegs]
  cases hg : H.getRegs w.dbg.pid w.os with
  | none =>
    rintro (hs | ⟨held, _⟩)
    · exact hr hs
    · rw [hg] at held
      cases held
  | some regs =>
    dsimp only
    cases hf : findReg name with
    | none => exact ⟨⟨rfl, .inl rfl⟩, fun _ => rfl⟩
    | some r =>
      have taken : ¬Refuses H w .set [name] (strtollInt 0 text.toList) := by
        rintro (hs | ⟨_, hn⟩)
        · exact hr hs
        · rw [hn name rfl] at hf
          cases hf
      simp only [wp_bind, wp_ptraceSetRegs, wp_ite, wp_pure, wp_errmsg]
      exact ⟨fun _ => ⟨⟨rfl, .inr ⟨_, rfl⟩⟩, fun h => absurd h taken⟩,
        fun _ => ⟨⟨rfl, .inr ⟨_, rfl⟩⟩, fun h => absurd h taken⟩⟩

theorem dump_careful (word : String) (rest : List String) (w : World σ) :
    Careful H .dump [] (strtollInt 0 text.toList) (cmdDump H (word :: text :: rest)) w := by
  by_cases hr : w.dbg.stat = .running
  · have taken : ¬Refuses H w .dump [] (strtollInt 0 text.toList) := fun h => h hr
    apply (calm_dump H (word :: text :: rest) w).mono
    · exact fun _ _ h => ⟨h, fun h => absurd h taken⟩
    · exact fun _ _ _ => taken
  · have hlen : ¬((word :: text :: rest).length < 2 ∧ w.dbg.ldump = 0) := by simp
    simp only [Careful, cmdDump, wp_bind, wp_dbg, wp_ite]
    refine ⟨fun h => absurd h hlen, fun _ => ⟨fun _ => ⟨rfl, fun _ => rfl⟩, fun h => ?_⟩⟩
    exfalso
    exact h hr

theorem disasm_careful (word : String) (rest : List String) (w : World σ) :
    Careful H .disasm [] (strtollInt 0 text.toList) (cmdDisasm H (word :: text :: rest)) w := by
  by_cases hn : Refuses H w .disasm [] (strtollInt 0 text.toList)
  · have hlen : ¬((word :: text :: rest).length < 2 ∧ w.dbg.ldisasm = 0) := by simp
    simp only [Careful, cmdDisasm, wp_bind, wp_dbg, wp_ite]
    refine ⟨fun h => absurd h hlen, fun _ => ⟨fun _ => ⟨rfl, fun _ => rfl⟩, fun hi => ?_⟩⟩
    obtain ⟨loaded, ptext, stext, hp, hs, hw⟩ := hn.resolve_left hi
    have hw : disasmWindow ptext stext (strtoll text) = none := hw
    refine ⟨fun _ => ?_, fun h => absurd loaded h⟩
    simp only [hp, hs, wp_bind, wp_deref_some, List.getElem?_cons_succ, List.getElem?_cons_zero,
      hw]
    exact ⟨rfl, fun _ => rfl⟩
  · apply (calm_disasm H (word :: text :: rest) w).mono
    · exact fun _ _ h => ⟨h, fun h => absurd h hn⟩
    · exact fun _ _ _ => hn

/-- The five commands, one by one. -/
theorem number_careful {b : Builtin} {base : Nat} (number : numeric b = some (args.length + 1, base))
    (exec : List String → DbgM σ Unit) (word : String) (rest : List String) (w : World σ) :
    Careful H b args (strtollInt base text.toList)
      (b.exec H exec (word :: (args ++ text :: rest))) w := by
  obtain ⟨rfl, rfl, rfl⟩ | ⟨rfl | rfl | rfl, rfl, rfl⟩ | ⟨rfl, ⟨name, rfl⟩, rfl⟩ :=
    numeric_cases number
  · exact delete_careful word rest w
  · exact break_careful word rest w
  · exact dump_careful word rest w
  · exact disasm_careful word rest w
  · exact set_careful word rest name w

end Effects

/-- Whatever is given for a number is read as one: the command does what it does with the literal
of the number that `strtoll` or `atoi` reads in it, returns and changes nothing if it refuses that
number, and otherwise changes only what the number is for. -/
theorem text_read_as_number {σ : Type} (H : Host σ) (w : World σ) (b : Builtin) (word : String)
    (found : lookup H.list word = some b) (args : List String) (base : Nat)
    (number : numeric b = some (args.length + 1, base)) (text : String) (rest : List String) :
    handle H (.line (word :: (args ++ text :: rest))) w =
        handle H (.line (word :: (args ++ literal (strtollInt base text.toList) :: rest))) w ∧
      (Refuses H w b args (strtollInt base text.toList) →
        ∃ w', handle H (.line (word :: (args ++ text :: rest))) w = .ok () w' ∧
          core w' = core w) ∧
      ∀ w', handle H (.line (word :: (args ++ text :: rest))) w = .ok () w' → Spares H w w' b := by
  have careful : Careful H b args (strtollInt base text.toList)
      (b.exec H (exec H 2) (word :: (args ++ text :: rest))) w :=
    number_careful number (exec H 2) word rest w
  refine ⟨?_, fun refused => ?_, fun w' ran => ?_⟩
  · rw [handle, handle, exec_found H 2 found, exec_found H 2 found, exec_literal number]
  · obtain ⟨⟨⟩, w', ran, h⟩ := careful.returns (fun _ _ not_ => not_ refused)
    exact ⟨w', by rw [handle, exec_found H 2 found, ran], h.2 refused⟩
  · rw [handle, exec_found H 2 found] at ran
    exact (careful.ok ran).1

/-- `7x` is read as a seven, and no breakpoint has that number. -/
theorem text_read_as_number_demo : ∃ w w' : World (Machine Demo.Hidden),
    w.dbg.bp.map (·.id) = [0] ∧
      handle (Demo.host Demo.static) (.line ["delete", "7x"]) w = .ok () w' ∧ core w' = core w := by
  obtain ⟨w, _, hs⟩ := exists_run (handle (Demo.host Demo.static))
    (World.init (Demo.machine (Demo.program Demo.nops)))
    [.line ["load", "demo"], .line ["b", "0x401001"]]
    (fun w => w.dbg.bp.map (·.id) = [0]) (by decide +kernel)
  have ids : w.dbg.bp.map (·.id) = [0] := of_decide_eq_true hs
  have read : strtollInt 10 "7x".toList = 7 := by decide
  obtain ⟨_, refused, _⟩ := text_read_as_number (Demo.host Demo.static) w .delete "delete"
    (lookup_name _ .delete) [] 10 rfl "7x" []
  obtain ⟨w', ran, same⟩ := refused <| by
    intro p hp seven
    have hm : p.id ∈ w.dbg.bp.map (·.id) := List.mem_map_of_mem hp
    rw [ids, seven, read] at hm
    simp at hm
  exact ⟨w, w', ids, ran, same⟩

theorem literal_abc (n : Int) : literal n ≠ "abc" := by
  intro h
  have letter : 'c' ∈ (if n < 0 then ['-'] else []) ++ Nat.toDigits 10 n.natAbs := by
    have spelled := congrArg String.toList h
    rw [literal, String.toList_ofList] at spelled
    rw [spelled]
    decide
  rcases List.mem_append.mp letter with hc | hc
  · split at hc
    · simp at hc
    · cases hc
  · have digit := (toDigits_spec (by decide) (by decide) n.natAbs).1 'c' hc
    cases digit

/-- The first breakpoint goes with any word. -/
theorem delete_word : ∃ w w' : World (Machine Demo.Hidden),
    Reached (handle (Demo.host Demo.static)) (fun _ _ _ => True)
      (World.init (Demo.machine (Demo.program Demo.nops))) w ∧
    (∀ n, literal n ≠ "abc") ∧
    handle (Demo.host Demo.static) (.line ["delete", "abc"]) w = .ok () w' ∧
    w.dbg.bp.length = 1 ∧ w'.dbg.bp = [] := by
  obtain ⟨w, hw, hs⟩ := exists_run (handle (Demo.host Demo.static))
    (World.init (Demo.machine (Demo.program Demo.nops)))
    [.line ["load", "demo"], .line ["b", "0x401001"]]
    (fun w => w.dbg.bp.length = 1 &&
      (returned (handle (Demo.host Demo.static) (.line ["delete", "abc"]) w)).any
        fun w' => w'.dbg.bp.isEmpty) (by decide +kernel)
  obtain ⟨one, hany⟩ := Bool.and_eq_true_iff.mp hs
  obtain ⟨w', ran, empty⟩ := (Option.any_eq_true _ _).mp hany
  obtain ⟨_, ran⟩ := returned_eq_some.mp ran
  exact ⟨w, w', hw, literal_abc, ran, of_decide_eq_true one, List.isEmpty_iff.mp empty⟩

end UnixProgramming.Sdb.Proofs
