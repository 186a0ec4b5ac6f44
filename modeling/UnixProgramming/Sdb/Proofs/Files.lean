import UnixProgramming.Sdb.Files
import UnixProgramming.Sdb.Proofs.Session

namespace UnixProgramming.Sdb.Proofs
open Lib

section Search
variable {ν : Type} {fs : Files ν} {name path : String} {f : ν}

theorem program_iff : fs.program path = some f ↔ fs.opened path = some f ∧ fs.runs f = true := by
  rw [Files.program, Option.filter_eq_some_iff]

theorem program_none :
    fs.program path = none ↔ ∀ g, fs.opened path = some g → fs.runs g = false := by
  rw [Files.program, Option.filter_eq_none_iff]
  simp

/-- The file can be executed, and it is the first of its name in `PATH` that can, unless the name
is a path. -/
def Files.Finds (fs : Files ν) (name : String) (f : ν) : Prop :=
  fs.runs f = true ∧ ('/' ∈ name.toList ∨ ∃ before dir after, fs.path = before ++ dir :: after ∧
    fs.opened (inDirectory name dir) = some f ∧
    ∀ d ∈ before, ∀ g, fs.opened (inDirectory name d) = some g → fs.runs g = false)

theorem execvp_iff (opened : fs.opened name = some f) :
    fs.execvp name = some f ↔ Files.Finds fs name f := by
  have named : name ≠ "" := by
    rintro rfl
    rw [Files.opened, fs.nameless] at opened
    cases opened
  rw [Files.execvp, if_neg named, Files.candidates]
  by_cases slash : '/' ∈ name.toList
  · rw [if_pos slash, List.findSome?_singleton, program_iff]
    exact ⟨fun h => ⟨h.2, .inl slash⟩, fun h => ⟨opened, h.1⟩⟩
  · rw [if_neg slash, List.findSome?_map, List.findSome?_eq_some_iff]
    simp only [Function.comp_apply, program_iff, program_none]
    constructor
    · rintro ⟨before, dir, after, hp, ⟨found, runs⟩, first⟩
      exact ⟨runs, .inr ⟨before, dir, after, hp, found, first⟩⟩
    · rintro ⟨runs, hs | ⟨before, dir, after, hp, found, first⟩⟩
      · exact absurd hs slash
      · exact ⟨before, dir, after, hp, ⟨found, runs⟩, first⟩

end Search

/-- What follows a computation sees only its result. -/
theorem bind_at {ε σ α β : Type} {c d : EStateM ε σ α} {s : σ} (same : c s = d s)
    (f : α → EStateM ε σ β) : (c >>= f) s = (d >>= f) s := by
  simp only [bind, EStateM.bind, same]

section Start
variable {σ : Type} {H : Host σ} {w : World σ} {argv : List String}

/-- Process control stays on record. -/
theorem moves_calls {s s' : Snap} (hm : Moves s s') : s.2 <:+ s'.2 := by
  induction hm with
  | refl => exact List.suffix_refl _
  | tail _ step ih =>
    apply ih.trans
    cases step with
    | ended | started | dumped | swept => exact List.suffix_refl _
    | _ => exact List.suffix_cons _ _

section Fork
variable (H) (fork : String → List String → σ → Option Nat × σ)

theorem patchLoop_fork (base : Word) (bps : List BreakPt) :
    patchLoop { H with fork := fork } base bps = patchLoop H base bps := by
  induction bps with
  | nil => rfl
  | cons b rest ih =>
    rw [patchLoop, patchLoop, ih]
    rfl

/-- The parent does not look at what else `fork` could do. -/
theorem startChild_fork (pid : Nat) : startChild { H with fork := fork } pid = startChild H pid := by
  have at_ : ∀ begin_, startAt { H with fork := fork } pid begin_ = startAt H pid begin_ := by
    intro begin_
    simp only [startAt, patchLoop_fork]
    rfl
  simp only [startChild, at_]
  rfl

theorem start_fork (same : fork w.dbg.programText (copyArgv w.dbg.programText argv) w.os =
      H.fork w.dbg.programText (copyArgv w.dbg.programText argv) w.os) :
    cmdStart { H with fork := fork } argv w = cmdStart H argv w := by
  have forked : sysFork { H with fork := fork } w.dbg.programText (copyArgv w.dbg.programText argv) w =
      sysFork H w.dbg.programText (copyArgv w.dbg.programText argv) w := by
    simp only [sysFork, same]
  simp only [cmdStart, startChild_fork, bind, EStateM.bind, dbg]
  split
  · rfl
  · split
    · rfl
    · refine (bind_at forked _).trans ?_
      rfl

/-- A child that was made is on record. -/
theorem start_forked (H : Host σ) (w : World σ) (argv : List String) {pid : Nat}
    (loaded : w.dbg.stat = .loaded)
    (forked : (H.fork w.dbg.programText (copyArgv w.dbg.programText argv) w.os).1 = some pid) :
    Wp (cmdStart H argv) (fun _ w' => .fork (some pid) :: w.calls <:+ w'.calls) (fun _ _ => True)
      w := by
  simp only [cmdStart, wp_bind, wp_dbg, loaded, reduceCtorEq, if_false, wp_sysFork, forked,
    wp_setDbg]
  apply wp_sysWaitpid
  · intro os _
    exact List.suffix_cons _ _
  · intro st os _
    simp only [wp_bind, wp_setDbg, wp_ite]
    refine ⟨fun _ => List.suffix_cons _ _, fun stopped => ?_⟩
    refine Wp.mono (startChild_along H rfl rfl rfl (by simpa using stopped)) ?_ ?_
    · intro _ w' moves
      exact (List.suffix_cons _ _).trans (moves_calls moves)
    · exact fun _ _ _ => trivial
  · exact fun _ _ => trivial

theorem start_unforked (H : Host σ) (w : World σ) (argv : List String)
    (loaded : w.dbg.stat = .loaded)
    (forked : (H.fork w.dbg.programText (copyArgv w.dbg.programText argv) w.os).1 = none) :
    Wp (cmdStart H argv) (fun _ w' => w'.calls = .fork none :: w.calls) (fun _ _ => False) w := by
  simp only [cmdStart, wp_bind, wp_dbg, loaded, reduceCtorEq, if_false, wp_sysFork, forked,
    wp_setDbg, wp_errmsg]

end Fork

end Start

section Parse
variable {σ : Type} (H : Host σ)

/-- What `load` makes of a file is what the debugger knows of its program. -/
def ParsedFrom (o : Option ElfFile) (d : Debugger) : Prop :=
  ∃ A opened eh, elfOpen A o = .ok (some opened) ∧ elfLoadAll A opened = .ok (true, eh) ∧
    d.eh = some eh

theorem loadFile_parses (name : String) (w : World σ) (init : w.dbg.stat = .init) :
    Wp (loadFile H name)
      (fun _ w' => w'.dbg.eh ≠ none →
        w'.dbg.program = name ∧ ParsedFrom (H.elf name w'.os) w'.dbg)
      (fun _ _ => True) w := by
  simp only [loadFile, wp_bind, wp_ask]
  cases ho : elfOpen (H.alloc w.os) (H.elf name w.os) with
  | error why => trivial
  | ok opened =>
    cases opened with
    | none => exact fun h => absurd rfl h
    | some eh =>
      simp only [wp_bind, wp_setDbg]
      cases hl : elfLoadAll (H.alloc w.os) eh with
      | error why => trivial
      | ok result =>
        obtain ⟨ok, eh'⟩ := result
        cases ok with
        | false =>
          simp only [wp_bind, wp_setDbg, freeDebugger, stopDebugger, wp_dbg, wp_ite, init]
          exact ⟨fun _ h => absurd rfl h, fun h => absurd trivial h⟩
        | true =>
          simp only [wp_bind, wp_setDbg, wp_ite, resetDebugger, wp_dbg]
          refine ⟨fun _ h => absurd rfl h, fun _ => ⟨fun _ h => absurd rfl h, fun _ =>
            ⟨fun _ => trivial, fun _ => ?_⟩⟩⟩
          cases Debugger.stextHdr _ with
          | none => trivial
          | some stext => exact fun _ => ⟨rfl, _, _, _, ho, hl, rfl⟩

theorem load_parses (word name : String) (argv : List String) (w : World σ) :
    Wp (cmdLoad H (word :: name :: argv))
      (fun _ w' => w'.dbg.eh ≠ none →
        w'.dbg.program = name ∧ ParsedFrom (H.elf name w'.os) w'.dbg)
      (fun _ _ => True) w := by
  simp only [cmdLoad, List.getElem?_cons_succ, List.getElem?_cons_zero, wp_bind, wp_dbg, wp_ite]
  refine ⟨fun _ => ?_, fun idle => ?_⟩
  · refine (freeDebugger_spec H w).mono ?_ (fun _ _ _ => trivial)
    rintro _ w₁ ⟨⟨d, _, hw⟩, _⟩
    exact loadFile_parses H name w₁ (by rw [hw]; rfl)
  · apply loadFile_parses H name w
    cases hs : w.dbg.stat with
    | init => rfl
    | loaded => exact absurd (.inl hs) idle
    | running => exact absurd (.inr hs) idle

end Parse

/-- The child of `start` executes `x`. -/
def StartExecutes (B : Host σ) (files : σ → Files ν) (w : World σ) (line : List String)
    (x : Option ν) : Prop :=
  ∀ spawn, handle (fileHost B files spawn) (.line line) w =
    handle (executing B files x spawn) (.line line) w

theorem startExecutes_iff {σ ν : Type} {B : Host σ} {files : σ → Files ν} {w : World σ}
    {word : String} {argv : List String} {x : Option ν} (loaded : w.dbg.stat = .loaded)
    (found : lookup B.list word = some .start) :
    StartExecutes B files w (word :: argv) x ↔ (files w.os).execvp w.dbg.programText = x := by
  have started : ∀ H : Host σ, lookup H.list word = some .start →
      handle H (.line (word :: argv)) w = cmdStart H (word :: argv) w := by
    intro H hf
    rw [handle, exec_found H 2 hf]
    rfl
  constructor
  · intro h
    by_contra hne
    -- a child cannot be made to execute `x`, but to execute anything else
    classical
    let spawn : Option ν → List String → σ → Option Nat × σ :=
      fun y _ os => (if y = x then none else some 0, os)
    have hs : cmdStart (fileHost B files spawn) (word :: argv) w =
        cmdStart (executing B files x spawn) (word :: argv) w :=
      (started (fileHost B files spawn) found).symm.trans
        ((h spawn).trans (started (executing B files x spawn) found))
    obtain ⟨_, w', ran, calls⟩ := (start_unforked (executing B files x spawn) w (word :: argv)
      loaded (if_pos rfl)).returns fun _ _ h => h
    have made := (start_forked (fileHost B files spawn) w (word :: argv) loaded
      (if_neg hne)).ok (hs.trans ran)
    rw [calls] at made
    have heads := made.eq_of_length rfl
    cases heads
  · intro he spawn
    have same : cmdStart (executing B files x spawn) (word :: argv) w =
        cmdStart (fileHost B files spawn) (word :: argv) w := by
      apply start_fork
      rw [← he]
      rfl
    exact (started (fileHost B files spawn) found).trans
      (same.symm.trans (started (executing B files x spawn) found).symm)

section Session
variable {σ ν : Type} {B : Host σ} {files : σ → Files ν}
  {spawn : Option ν → List String → σ → Option Nat × σ} {os : σ} {w w' : World σ} {i : Input σ}

/-- No file changes between the two prompts, unless no program is loaded or another one is. -/
def Kept (B : Host σ) (files : σ → Files ν) (w : World σ) (i : Input σ) (w' : World σ) : Prop :=
  files w'.os = files w.os ∨ w'.dbg.stat = .init ∨
    ∃ word name argv, i = .line (word :: name :: argv) ∧ lookup B.list word = some .load

/-- The program was loaded from the file that its name still stands for. -/
def FromFile (files : σ → Files ν) (w : World σ) : Prop :=
  w.dbg.eh ≠ none → ∃ f, (files w.os).opened w.dbg.program = some f ∧
    ParsedFrom ((files w.os).elf f) w.dbg

theorem load_fromFile {word name : String} {argv : List String}
    (found : lookup B.list word = some .load)
    (ran : handle (fileHost B files spawn) (.line (word :: name :: argv)) w = .ok () w') :
    FromFile files w' := by
  intro some_
  rw [handle, exec_found (fileHost B files spawn) 2 found] at ran
  obtain ⟨named, A, opened, eh, ho, hl, he⟩ :=
    (load_parses (fileHost B files spawn) word name argv w).ok ran some_
  have ho : elfOpen A (((files w'.os).opened name).bind (files w'.os).elf) = .ok (some opened) := ho
  cases hf : (files w'.os).opened name with
  | none =>
    rw [hf] at ho
    cases ho
  | some f =>
    rw [hf] at ho
    exact ⟨f, by rw [named, hf], A, opened, eh, ho, hl, he⟩

theorem reached_fromFile
    (reached : Reached (handle (fileHost B files spawn)) (Kept B files) (World.init os) w) :
    FromFile files w := by
  refine reached.invariant (I := FromFile files) (fun h => absurd rfl h) ?_
  intro w i w' before ih kept ran
  have ready := reached_ready (before.next ran kept)
  obtain same | init | ⟨word, name, argv, rfl, found⟩ := kept
  · obtain file | ⟨word, name, argv, rfl, found, _⟩ := (handle_round _ ran).file
    · intro some_
      rw [file.eh] at some_
      obtain ⟨f, opened, A, h, eh, parsed⟩ := ih some_
      rw [← same, ← file.program] at opened
      rw [← same, ← file.eh] at parsed
      exact ⟨f, opened, A, h, eh, parsed⟩
    · exact load_fromFile found ran
  · exact fun some_ => absurd (ready.init init).eh some_
  · exact load_fromFile found ran

end Session

/-- In LOADED, with no file changed since, a name that fits in `program` stands for the file that
was parsed, and its code is read from it. `start` has its child execute this file exactly when it
can be executed and the name is a path or the file the first of its name in `PATH`. -/
theorem start_executes_loaded_iff {σ ν : Type} (B : Host σ) (files : σ → Files ν)
    (spawn : Option ν → List String → σ → Option Nat × σ) (os : σ) (w : World σ)
    (reached : Reached (handle (fileHost B files spawn)) (Kept B files) (World.init os) w)
    (loaded : w.dbg.stat = .loaded) (short : w.dbg.program.utf8ByteSize < MAX_PROG_NAME_LEN)
    (word : String) (argv : List String) (found : lookup B.list word = some .start) :
    ∃ f, (files w.os).opened w.dbg.program = some f ∧
      ParsedFrom ((files w.os).elf f) w.dbg ∧
      (∀ offset n, (fileHost B files spawn).fread w.dbg.programText offset n w.os =
        some ((((files w.os).data f).drop offset.toNat).take n)) ∧
      (StartExecutes B files w (word :: argv) (some f) ↔
        Files.Finds (files w.os) w.dbg.program f) := by
  obtain ⟨eh, _, he, _⟩ := (reached_ready reached).text (by simp [loaded])
  have some_ : w.dbg.eh ≠ none := by simp [he]
  obtain ⟨f, opened, parsed⟩ := reached_fromFile reached some_
  refine ⟨f, opened, parsed, fun offset n => ?_, ?_⟩
  · simp only [fileHost, programText_short short, opened, Option.map_some]
  · rw [startExecutes_iff loaded found, programText_short short, execvp_iff opened]

/-- A program in the current directory, and another one of that name in a directory of `PATH`. -/
inductive Namesake
  | here
  | there
deriving DecidableEq

def namesakes : Files Namesake where
  resolve dir path :=
    if path = "/usr/bin/demo" then some .there
    else if dir = "/home" ∧ (path = "demo" ∨ path = "./demo") then some .here
    else none
  nameless _ := by simp
  cwd := "/home"
  path := ["/usr/bin"]
  runs _ := true
  elf _ := some Demo.static
  data _ := []

/-- Either program makes the same child. -/
def namesakeHost : Host (Machine Demo.Hidden) :=
  fileHost (Demo.host Demo.static) (fun _ => namesakes) fun _ _ => Machine.fork

theorem exists_named (name : String)
    (h : (runAll (handle namesakeHost) (fun _ _ _ => true) [.line ["load", name]]
      (World.init (Demo.machine (Demo.program Demo.nops)))).any
      (fun w => w.dbg.stat = .loaded && w.dbg.program = name) = true) :
    ∃ w : World (Machine Demo.Hidden),
      Reached (handle namesakeHost) (Kept (Demo.host Demo.static) fun _ => namesakes)
        (World.init (Demo.machine (Demo.program Demo.nops))) w ∧
      w.dbg.stat = .loaded ∧ w.dbg.program = name := by
  obtain ⟨w, hw, hs⟩ := exists_run _ _ _ _ h
  obtain ⟨loaded, named⟩ := Bool.and_eq_true_iff.mp hs
  exact ⟨w, hw.mono fun _ _ _ _ => .inl rfl, of_decide_eq_true loaded, of_decide_eq_true named⟩

/-- A path to the program. -/
theorem start_executes_loaded_demo : ∃ w : World (Machine Demo.Hidden),
    w.dbg.program = "./demo" ∧ namesakes.opened "./demo" = some .here ∧
      StartExecutes (Demo.host Demo.static) (fun _ => namesakes) w ["start"] (some .here) := by
  obtain ⟨w, reached, loaded, named⟩ := exists_named "./demo" (by decide +kernel)
  have here : namesakes.opened "./demo" = some .here := by decide
  obtain ⟨f, opened, _, _, hiff⟩ := start_executes_loaded_iff (Demo.host Demo.static)
    (fun _ => namesakes) (fun _ _ => Machine.fork) _ w reached loaded (by rw [named]; decide) "start" []
    (lookup_name (Demo.host Demo.static) .start)
  rw [named, here] at opened
  cases opened
  exact ⟨w, named, here, hiff.mpr (by rw [named]; exact ⟨rfl, .inl (by decide)⟩)⟩

/-- A name without a slash: `load` reads the file in the current directory, `start` executes
the one in `PATH`. -/
theorem namesake_executed : ∃ w : World (Machine Demo.Hidden),
    Reached (handle namesakeHost) (Kept (Demo.host Demo.static) fun _ => namesakes)
      (World.init (Demo.machine (Demo.program Demo.nops))) w ∧
    w.dbg.stat = .loaded ∧ w.dbg.program = "demo" ∧ namesakes.opened "demo" = some .here ∧
    StartExecutes (Demo.host Demo.static) (fun _ => namesakes) w ["start"] (some .there) ∧
    ¬StartExecutes (Demo.host Demo.static) (fun _ => namesakes) w ["start"] (some .here) := by
  obtain ⟨w, reached, loaded, named⟩ := exists_named "demo" (by decide +kernel)
  have found : lookup (Demo.host Demo.static).list "start" = some .start := lookup_name _ .start
  have there : namesakes.execvp "demo" = some .there := by decide
  have read : w.dbg.programText = "demo" := by
    rw [programText_short (by rw [named]; decide), named]
  refine ⟨w, reached, loaded, named, by decide, ?_, ?_⟩
  · rw [startExecutes_iff loaded found, read, there]
  · rw [startExecutes_iff loaded found, read, there]
    simp

end UnixProgramming.Sdb.Proofs
