import UnixProgramming.Sdb.Machine
import UnixProgramming.Sdb.Proofs.Moves

namespace UnixProgramming.Sdb.Proofs
open Lib

/-- The word is the command's name or the nick it was declared with. -/
def Names (b : Builtin) (word : String) : Prop := b.name = word ∨ b.nick ≠ "" ∧ b.nick = word

/-- The command with nothing dispatched by name: `cont` steps, and `run` starts and goes on. -/
def direct {σ : Type} (H : Host σ) (b : Builtin) (argv : List String) : DbgM σ Unit :=
  let cont := cmdCont H (fun _ => cmdSi H)
  let other (argv : List String) : DbgM σ Unit :=
    if argv.head? = some Builtin.start.name then cmdStart H argv else cont argv
  match b with
  | .cont => cont argv
  | .run => cmdRun H other argv
  | b => b.exec H (fun _ => throw .hang) argv

section Words
variable {b b' : Builtin} {word : String} {list : List Builtin}

theorem name_ne_empty : ∀ b ∈ Builtin.all, b.name ≠ "" := by decide

theorem mem_all (b : Builtin) : b ∈ Builtin.all := by cases b <;> decide

theorem not_names_empty (b : Builtin) : ¬Names b "" := by
  rintro (h | ⟨hne, h⟩)
  · exact name_ne_empty b (mem_all b) h
  · exact hne h

/-- Names and nicks are all different. -/
theorem Names.unique (h : Names b word) (h' : Names b' word) : b' = b := by
  have hall : ∀ b' ∈ Builtin.all, ∀ b ∈ Builtin.all,
      (b.name = b'.name ∨ b'.nick ≠ "" ∧ (b.name = b'.nick ∨ b'.nick = b.nick) ∨
        b.nick ≠ "" ∧ b.nick = b'.name) → b' = b := by decide
  apply hall b' (mem_all b') b (mem_all b)
  rcases h with h | ⟨hne, h⟩ <;> rcases h' with h' | ⟨hne', h'⟩
  · exact .inl (h.trans h'.symm)
  · exact .inr (.inl ⟨hne', .inl (h.trans h'.symm)⟩)
  · exact .inr (.inr ⟨hne, h.trans h'.symm⟩)
  · exact .inr (.inl ⟨hne', .inr (h'.trans h.symm)⟩)

/-- For a word that is not empty the two comparisons of `exec` say what is meant. -/
theorem matches_iff (some_ : word ≠ "") :
    (b.name == word || b.nick == word) = true ↔ Names b word := by
  rw [Bool.or_eq_true, beq_iff_eq, beq_iff_eq]
  constructor
  · rintro (h | h)
    · exact .inl h
    · exact .inr ⟨fun he => some_ (h.symm.trans he), h⟩
  · rintro (h | ⟨_, h⟩)
    · exact .inl h
    · exact .inr h

theorem lookup_named (registered : list.Perm Builtin.all) (some_ : word ≠ "") (h : Names b word) :
    lookup list word = some b := by
  apply lookup_unique registered
  · exact (matches_iff some_).mpr h
  · intro b' _ h'
    exact h.unique ((matches_iff some_).mp h')

theorem lookup_unnamed (some_ : word ≠ "") (h : ∀ b, ¬Names b word) : lookup list word = none := by
  apply List.find?_eq_none.mpr
  intro b _ hb
  exact h b ((matches_iff some_).mp hb)

/-- The empty word finds the first command without a nick. -/
theorem lookup_empty (registered : list.Perm Builtin.all) :
    ∃ b, lookup list "" = some b ∧ b.nick = "" := by
  cases hf : lookup list "" with
  | none =>
    have hload : Builtin.load ∈ list := registered.mem_iff.mpr (mem_all _)
    exact absurd rfl (List.find?_eq_none.mp hf .load hload)
  | some b =>
    have hb := List.find?_some hf
    rw [Bool.or_eq_true, beq_iff_eq, beq_iff_eq] at hb
    exact ⟨b, rfl, hb.resolve_left (name_ne_empty b (mem_all b))⟩

end Words

section Nested
variable {σ : Type} {H : Host σ}

/-- `cont` only ever dispatches `si`. -/
theorem cont_direct (n : Nat) (argv : List String) :
    cmdCont H (exec H (n + 1)) argv = cmdCont H (fun _ => cmdSi H) argv := by
  simp only [cmdCont, exec_si]

/-- Two levels of `exec` below a command are enough. -/
theorem exec_direct (n : Nat) (b : Builtin) (argv : List String) :
    b.exec H (exec H (n + 2)) argv = direct H b argv := by
  cases b with
  | cont => exact cont_direct (n + 1) argv
  | run =>
    have hstart : (copyArgv "start" argv).head? = some Builtin.start.name := rfl
    have hcont : (copyArgv "cont" argv).head? ≠ some Builtin.start.name := by
      show some "cont" ≠ some "start"
      decide
    simp only [Builtin.exec, direct, cmdRun, exec_start, exec_cont, cont_direct, if_pos hstart,
      if_neg hcont]
  | _ => rfl

theorem exec_named {b : Builtin} {word : String} (some_ : word ≠ "") (h : Names b word) (n : Nat)
    (argv : List String) : exec H (n + 3) (word :: argv) = direct H b (word :: argv) := by
  rw [exec_found H (n + 2) (lookup_named H.registered some_ h)]
  exact exec_direct n b _

/-- A command without a nick does not say that the word is undefined. -/
theorem nickless_answers {b : Builtin} (h : b.nick = "") (os : σ) :
    b.exec H (exec H 2) [""] (World.init os) ≠
      errmsg "undefined command: '%s'." [.str ""] (World.init os) := by
  cases b with
  | load => simp [Builtin.exec, cmdLoad, errmsg, print]
  | delete => simp [Builtin.exec, cmdDelete, errmsg, print]
  | start => simp [Builtin.exec, cmdStart, errmsg, print, bind, EStateM.bind, dbg, World.init]
  | si => simp [Builtin.exec, cmdSi, errmsg, print, bind, EStateM.bind, dbg, World.init]
  | getregs => simp [Builtin.exec, cmdGetregs, errmsg, print, bind, EStateM.bind, dbg, World.init]
  | _ => exact absurd h (by decide)

end Nested

/-- Whatever the order of registration, a word runs the one command that has it for its name or
its nick, with all that the command dispatches in turn, or is reported as undefined, exactly
when it is not the empty word. -/
theorem dispatch_iff {σ : Type} (H : Host σ) (os : σ) (word : String) :
    ((∀ b b', Names b word → Names b' word → b' = b) ∧
      (∀ b, Names b word → ∀ n argv,
        exec H (n + 3) (word :: argv) = direct H b (word :: argv)) ∧
      ((∀ b, ¬Names b word) → ∀ n argv,
        exec H (n + 3) (word :: argv) = errmsg "undefined command: '%s'." [.str word])) ↔
    word ≠ "" := by
  constructor
  · rintro ⟨_, _, undefined⟩ rfl
    obtain ⟨b, found, nickless⟩ := lookup_empty H.registered
    have hrun := undefined not_names_empty 0 []
    rw [exec_found H 2 found] at hrun
    exact nickless_answers nickless os (congrFun hrun (World.init os))
  · intro some_
    refine ⟨fun b b' h h' => h.unique h', fun b h n argv => exec_named some_ h n argv, ?_⟩
    intro h n argv
    exact exec_unknown H (n + 2) (lookup_unnamed some_ h)

/-- The same commands, registered in the opposite order. -/
def reversed {σ : Type} (H : Host σ) : Host σ :=
  { H with
    list := H.list.reverse
    registered := (List.reverse_perm H.list).trans H.registered }

/-- The nick of `disasm` in either order. -/
theorem dispatch_demo :
    exec (Demo.host Demo.static) 3 ["d", "0x401000"] =
        direct (Demo.host Demo.static) .disasm ["d", "0x401000"] ∧
      exec (reversed (Demo.host Demo.static)) 3 ["d", "0x401000"] =
        direct (reversed (Demo.host Demo.static)) .disasm ["d", "0x401000"] := by
  have os := Demo.machine (Demo.program Demo.nops)
  have named : Names .disasm "d" := .inr ⟨by decide, rfl⟩
  have some_ : "d" ≠ "" := by decide
  exact ⟨((dispatch_iff (Demo.host Demo.static) os "d").mpr some_).2.1 .disasm named 0 _,
    ((dispatch_iff (reversed (Demo.host Demo.static)) os "d").mpr some_).2.1 .disasm named 0 _⟩

/-- A quoted empty word runs `load` in one order and `getregs` in the other. -/
theorem empty_word_by_order :
    handle (Demo.host Demo.static) (.line [""])
        (World.init (Demo.machine (Demo.program Demo.nops))) =
      errmsg "no executable file specified." [] (World.init (Demo.machine (Demo.program Demo.nops))) ∧
    handle (reversed (Demo.host Demo.static)) (.line [""])
        (World.init (Demo.machine (Demo.program Demo.nops))) =
      errmsg "the program is not being run." []
        (World.init (Demo.machine (Demo.program Demo.nops))) := by
  have hload : lookup (Demo.host Demo.static).list "" = some .load := by decide
  have hgetregs : lookup (reversed (Demo.host Demo.static)).list "" = some .getregs := by decide
  constructor
  · rw [handle, exec_found _ 2 hload]
    rfl
  · rw [handle, exec_found _ 2 hgetregs]
    rfl

end UnixProgramming.Sdb.Proofs
