import UnixProgramming.Sdb.Proofs.Lifetime

namespace UnixProgramming.Sdb.Proofs
open Lib

/-- A field of the record that only `stop_debugger` and `reset_debugger` and the command it
belongs to write, the first two with zero. -/
structure Cursor (f : Debugger → Word) : Prop where
  called : ∀ (d : Debugger) pid status, f { d with pid := pid, status := status } = f d
  based : ∀ (d : Debugger) base, f { d with base := base } = f d
  broke : ∀ (d : Debugger) bp bpi stat, f { d with bp := bp, bpi := bpi, stat := stat } = f d
  stopped : ∀ d : Debugger, f d.stopped = 0

theorem ldump_cursor : Cursor Debugger.ldump where
  called _ _ _ := rfl
  based _ _ := rfl
  broke _ _ _ _ := rfl
  stopped _ := rfl

theorem ldisasm_cursor : Cursor Debugger.ldisasm where
  called _ _ _ := rfl
  based _ _ := rfl
  broke _ _ _ _ := rfl
  stopped _ := rfl

/-- The computation leaves the field as it is or at zero. -/
def Fades (f : Debugger → Word) (c : DbgM σ α) : Prop :=
  ∀ w, Wp c (fun _ w' => f w'.dbg = f w.dbg ∨ f w'.dbg = 0) (fun _ _ => True) w

section Fading
variable {σ α β : Type} {H : Host σ} {f : Debugger → Word}

theorem Fades.bind {c : DbgM σ α} {g : α → DbgM σ β} (hc : Fades f c) (hg : ∀ a, Fades f (g a)) :
    Fades f (c >>= g) := by
  intro w
  rw [wp_bind]
  refine (hc w).mono ?_ (fun _ _ _ => trivial)
  intro a w₁ h₁
  refine (hg a w₁).mono ?_ (fun _ _ _ => trivial)
  rintro _ w₂ (h₂ | h₂)
  · rw [h₂]
    exact h₁
  · exact .inr h₂

theorem Still.fades {c : DbgM σ α} (h : Still c) : Fades f c :=
  fun w => (h w).mono (fun _ _ he => .inl (by rw [dbg_eq he])) (fun _ _ _ => trivial)

theorem fades_pure (a : α) : Fades f (pure a : DbgM σ α) := fun _ => .inl rfl

theorem fades_set {g : Debugger → Debugger} (h : ∀ d, f (g d) = f d ∨ f (g d) = 0) :
    Fades f (setDbg g : DbgM σ Unit) := fun w => h w.dbg

theorem fades_dbg : Fades f (dbg : DbgM σ Debugger) := looks_dbg.still.fades

theorem fades_errmsg (fmt : String) (args : List Arg) : Fades f (errmsg fmt args : DbgM σ Unit) :=
  (looks_errmsg fmt args).still.fades

theorem fades_sysWaitpid (site : Site) (pid : Int) : Fades f (sysWaitpid H site pid) :=
  fun _ => wp_sysWaitpid (fun _ _ => .inl rfl) (fun _ _ _ => .inl rfl) (fun _ _ => trivial)

theorem fades_stopDebugger (hf : Cursor f) : Fades f (stopDebugger H) := by
  intro w
  refine (stopDebugger_spec H w).mono ?_ (fun _ _ _ => trivial)
  rintro _ w' ⟨hd, _⟩
  unfold stopRecord at hd
  cases hs : w.dbg.stat with
  | init =>
    rw [hs] at hd
    rw [← Option.some.inj hd]
    exact .inl rfl
  | loaded =>
    rw [hs] at hd
    rw [← Option.some.inj hd]
    exact .inr (hf.stopped _)
  | running =>
    rw [hs] at hd
    obtain ⟨ptext, _, he⟩ := Option.map_eq_some_iff.mp hd
    rw [← he]
    exact .inr (hf.stopped _)

theorem fades_cmd (hf : Cursor f) (param : Resume) : Fades f (cmd H param) := by
  refine fades_dbg.bind fun d => Fades.bind (fun _ => .inl rfl) fun _ => ?_
  refine (fades_sysWaitpid _ _).bind fun status => ?_
  split
  · exact (reads_errquit _ _).still.fades
  · refine (fades_set fun d => .inl (hf.called d d.pid _)).bind fun _ => ?_
    split
    · refine (fades_stopDebugger hf).bind fun _ => ?_
      split
      · exact fades_errmsg _ _
      · exact fades_errmsg _ _
    · split
      · exact (still_resetRip H).fades
      · exact fades_errmsg _ _

theorem fades_si (hf : Cursor f) : Fades f (cmdSi H) := by
  refine fades_dbg.bind fun d => ?_
  split
  · exact fades_errmsg _ _
  · refine (reads_bpCheck H).still.fades.bind fun i => ?_
    split
    · exact fades_cmd hf _
    · refine (looks_deref _).still.fades.bind fun b => (still_bpUnpatch H b).fades.bind fun _ => ?_
      refine (fades_cmd hf _).bind fun _ => fades_dbg.bind fun d => ?_
      refine (looks_deref _).still.fades.bind fun b => ?_
      exact (still_bpPatch H _).fades.bind fun _ => fades_pure _

theorem still_patchLoop (base : Word) (l : List BreakPt) : Still (patchLoop H base l) := by
  induction l with
  | nil => exact .pure _
  | cons b rest ih => exact (still_bpPatch H _).bind fun code => ih.bind fun rest => .pure _

theorem fades_startChild (hf : Cursor f) (pid : Nat) : Fades f (startChild H pid) := by
  refine (looks_ask _).still.fades.bind fun maps => (looks_deref _).still.fades.bind fun maps => ?_
  refine (looks_scanBegin H maps).still.fades.bind fun begin_ => fades_dbg.bind fun d => ?_
  refine (looks_deref _).still.fades.bind fun ptext => ?_
  refine (fades_set fun d => .inl (hf.based d _)).bind fun _ => ?_
  refine (still_patchLoop _ _).fades.bind fun bp => ?_
  refine (fades_set fun d => .inl (hf.broke d bp d.bpi _)).bind fun _ => ?_
  refine (fades_errmsg _ _).bind fun _ => (reads_bpCheck H).still.fades.bind fun i => ?_
  split
  · exact fades_pure _
  · exact (looks_deref _).still.fades.bind fun b => (prints_showBreak H b).looks.still.fades

theorem fades_start (hf : Cursor f) (argv : List String) : Fades f (cmdStart H argv) := by
  refine fades_dbg.bind fun d => ?_
  split
  · exact fades_errmsg _ _
  · split
    · exact fades_errmsg _ _
    · refine Fades.bind (fun _ => .inl rfl) fun pid => ?_
      split
      · exact (fades_set fun d => .inl (hf.called d _ d.status)).bind fun _ => fades_errmsg _ _
      · refine (fades_set fun d => .inl (hf.called d _ d.status)).bind fun _ => ?_
        refine (fades_sysWaitpid _ _).bind fun status => ?_
        split
        · exact fades_errmsg _ _
        · refine (fades_set fun d => .inl (hf.called d d.pid _)).bind fun _ => ?_
          split
          · exact fades_errmsg _ _
          · exact fades_startChild hf _

theorem fades_cont (hf : Cursor f) (n : Nat) (argv : List String) :
    Fades f (cmdCont H (exec H (n + 1)) argv) := by
  refine fades_dbg.bind fun d => ?_
  split
  · exact fades_errmsg _ _
  · rw [exec_si]
    exact (fades_si hf).bind fun _ => fades_cmd hf _

theorem fades_run (hf : Cursor f) (n : Nat) (argv : List String) :
    Fades f (cmdRun H (exec H (n + 2)) argv) := by
  have tail : Fades f (do
      if (← bpCheck H).isNone then
        exec H (n + 2) (copyArgv "cont" argv)) := by
    refine (reads_bpCheck H).still.fades.bind fun i => ?_
    split
    · rw [exec_cont]
      exact fades_cont hf n _
    · exact fades_pure _
  refine fades_dbg.bind fun d => ?_
  split
  · exact fades_errmsg _ _
  · split
    · refine Fades.bind ?_ fun _ => tail
      rw [exec_start]
      exact fades_start hf _
    · exact (fades_errmsg _ _).bind fun _ => tail

/-- A finished command other than the one the field belongs to, with the program running behind
it, leaves the field as it is or at zero. -/
theorem round_fades (hf : Cursor f) {w w' : World σ} {i : Input σ}
    (dump : ∀ argv, command H i = some .dump → Fades f (cmdDump H argv))
    (disasm : ∀ argv, command H i = some .disasm → Fades f (cmdDisasm H argv))
    (ran : handle H i w = .ok () w') (running : w'.dbg.stat = .running) :
    f w'.dbg = f w.dbg ∨ f w'.dbg = 0 := by
  have hround := handle_round H ran
  cases hround with
  | outside move w' same => exact .inl (by rw [dbg_eq same])
  | unknown word argv w' found same => exact .inl (by rw [dbg_eq same])
  | bare word w' found same => exact .inl (by rw [dbg_eq same])
  | quiet word argv w' b found still moves =>
    rw [handle, exec_found H 2 found] at ran
    have hb : Fades f (b.exec H (exec H 2) (word :: argv)) := by
      cases b with
      | load => cases still
      | «break» => cases still
      | delete => cases still
      | exit => cases still
      | start => exact fades_start hf _
      | run => exact fades_run hf 0 _
      | si => exact fades_si hf
      | cont => exact fades_cont hf 1 _
      | get => exact (reads_get H _).still.fades
      | getregs => exact (reads_getregs H).still.fades
      | set => exact (still_set H _).fades
      | dump => exact dump _ found
      | disasm => exact disasm _ found
      | list => exact looks_list.still.fades
      | vmmap => exact (looks_vmmap H).still.fades
      | help => exact (looks_print _).still.fades
    exact (hb w).ok ran
  | load word name argv w' found calls result =>
    exact absurd running (result.idle (cleared_init _))
  | «break» word argv w' found calls broke =>
    obtain ⟨bpi, bp, he⟩ := broke.edits
    rw [he]
    exact .inl (hf.broke w.dbg bp bpi w.dbg.stat)
  | delete word argv w' found calls deleted =>
    obtain ⟨bpi, bp, he⟩ := deleted.edits
    rw [he]
    exact .inl (hf.broke w.dbg bp bpi w.dbg.stat)

theorem dump_keeps_ldisasm (argv : List String) : Fades Debugger.ldisasm (cmdDump H argv) := by
  refine fades_dbg.bind fun d => ?_
  split
  · exact fades_errmsg _ _
  · split
    · exact fades_errmsg _ _
    · exact (looks_dumpRows H _ _).still.fades.bind fun _ => fades_set fun _ => .inl rfl

theorem disasm_keeps_ldump (argv : List String) : Fades Debugger.ldump (cmdDisasm H argv) := by
  have show_ : ∀ code addr, Fades Debugger.ldump (showCode H code addr) := fun code addr =>
    (prints_disasm H _ _ _).looks.still.fades.bind fun size => fades_set fun _ => .inl rfl
  refine fades_dbg.bind fun d => ?_
  split
  · exact fades_errmsg _ _
  · split
    · exact fades_errmsg _ _
    · dsimp only
      split
      · refine (looks_deref _).still.fades.bind fun ptext => ?_
        refine (looks_deref _).still.fades.bind fun stext => ?_
        split
        · exact fades_errmsg _ _
        · exact (looks_fileCode H _ _).still.fades.bind fun code => show_ code _
      · refine (looks_peekWords H _ _).still.fades.bind fun code => ?_
        exact (looks_deref _).still.fades.bind fun code => show_ code _

end Fading

/-- The field was last set by the command `b`, in a run that has stayed in RUNNING since. -/
def SetSince (H : Host σ) (b : Builtin) (f : Debugger → Word) (ns : List (World σ × Input σ))
    (w : World σ) : Prop :=
  ∃ pre v i post, ns = pre ++ (v, i) :: post ∧ command H i = some b ∧ v.dbg.stat = .running ∧
    ∀ n ∈ post, n.1.dbg.stat = .running ∧ f n.1.dbg = f w.dbg

/-- The field is zero or was set since the program was last started. -/
def Current (H : Host σ) (b : Builtin) (f : Debugger → Word) (ns : List (World σ × Input σ))
    (w : World σ) : Prop :=
  f w.dbg = 0 ∨ SetSince H b f ns w

/-- The input does not start the program with a cursor left from before. -/
def StartsFresh (w : World σ) (_ : Input σ) (w' : World σ) : Prop :=
  w.dbg.stat = .loaded → w'.dbg.stat = .running → w.dbg.ldump = 0 ∧ w.dbg.ldisasm = 0

instance (w : World σ) (i : Input σ) (w' : World σ) : Decidable (StartsFresh w i w') :=
  inferInstanceAs (Decidable (_ → _ → _))

section Since
variable {σ : Type} {H : Host σ} {b : Builtin} {f : Debugger → Word}
  {ns : List (World σ × Input σ)} {w w' : World σ} {i : Input σ}

theorem SetSince.now (found : command H i = some b) (running : w.dbg.stat = .running) :
    SetSince H b f (ns ++ [(w, i)]) w' :=
  ⟨ns, w, i, [], rfl, found, running, by simp⟩

theorem SetSince.kept (h : SetSince H b f ns w) (running : w.dbg.stat = .running)
    (same : f w'.dbg = f w.dbg) : SetSince H b f (ns ++ [(w, i)]) w' := by
  obtain ⟨pre, v, j, post, hs, found, hv, hpost⟩ := h
  refine ⟨pre, v, j, post ++ [(w, i)], by simp [hs], found, hv, ?_⟩
  intro n hn
  rcases List.mem_append.mp hn with hn | hn
  · obtain ⟨hr, he⟩ := hpost n hn
    exact ⟨hr, he.trans same.symm⟩
  · rw [List.mem_singleton.mp hn]
    exact ⟨running, same.symm⟩

/-- One round keeps a field current: its own command sets it, any other keeps it or zeroes it,
and a program that is started begins with zero. -/
theorem Current.next (h : w.dbg.stat = .running → Current H b f ns w)
    (zero : w.dbg.stat ≠ .running → f w.dbg = 0) (running : w'.dbg.stat = .running)
    (fades : command H i ≠ some b → f w'.dbg = f w.dbg ∨ f w'.dbg = 0)
    (calm : command H i = some b → w'.dbg.stat = w.dbg.stat) :
    Current H b f (ns ++ [(w, i)]) w' := by
  by_cases found : command H i = some b
  · exact .inr (.now found ((calm found).symm.trans running))
  · rcases fades found with same | gone
    · by_cases hr : w.dbg.stat = .running
      · rcases h hr with hz | hs
        · exact .inl (same.trans hz)
        · exact .inr (hs.kept hr same)
      · exact .inl (same.trans (zero hr))
    · exact .inl gone

/-- A command that only moves its own field leaves `stat` alone. -/
theorem calm_command {c : List String → DbgM σ Unit} (hb : ∀ exec argv, b.exec H exec argv = c argv)
    (calm : ∀ argv, Keeps calm Fault (c argv)) (found : command H i = some b)
    (ran : handle H i w = .ok () w') : w'.dbg.stat = w.dbg.stat := by
  cases i with
  | eof => cases found
  | outside move => cases found
  | line argv =>
    cases argv with
    | nil => cases found
    | cons word argv =>
      rw [handle, exec_found H 2 found, hb] at ran
      exact calm_stat ((calm _ w).ok ran)

end Since

/-- As long as every start finds both cursors at zero, the cursors of `dump` and `disasm` are zero
or were set since the program was last started. -/
theorem cursors_current {σ : Type} (H : Host σ) (os : σ) (ns : List (World σ × Input σ))
    (w : World σ) (recorded : Recorded (handle H) StartsFresh Prod.mk (World.init os) ns w)
    (running : w.dbg.stat = .running) :
    Current H .dump Debugger.ldump ns w ∧ Current H .disasm Debugger.ldisasm ns w := by
  induction recorded with
  | init => cases running
  | @next ns w i w' before ran fresh ih =>
    have zero : w.dbg.stat ≠ .running → w.dbg.ldump = 0 ∧ w.dbg.ldisasm = 0 := by
      intro idle
      cases hs : w.dbg.stat with
      | init =>
        have blank := (reached_ready before.reached).init hs
        exact ⟨blank.ldump, blank.ldisasm⟩
      | loaded => exact fresh hs running
      | running => exact absurd hs idle
    constructor
    · refine Current.next (fun hr => (ih hr).1) (fun hr => (zero hr).1) running (fun hne => ?_) ?_
      · exact round_fades ldump_cursor (fun _ hd => absurd hd hne)
          (fun argv _ => disasm_keeps_ldump argv) ran running
      · exact fun found => calm_command (fun _ _ => rfl) (calm_dump H) found ran
    · refine Current.next (fun hr => (ih hr).2) (fun hr => (zero hr).2) running (fun hne => ?_) ?_
      · exact round_fades ldisasm_cursor (fun argv _ => dump_keeps_ldisasm argv)
          (fun _ hd => absurd hd hne) ran running
      · exact fun found => calm_command (fun _ _ => rfl) (calm_disasm H) found ran

/-- A position-independent program in one segment. -/
def pieHost : Host (Machine Demo.Hidden) :=
  Demo.host (Demo.pie [Demo.segment (PF_R ||| PF_X) 0 0x2000])

/-- A session that starts the program before it looks at it. -/
theorem cursors_current_demo : ∃ (ns : List (World (Machine Demo.Hidden) × Input (Machine Demo.Hidden)))
    (w : World (Machine Demo.Hidden)),
    w.dbg.ldump = 0x555555555050 ∧ w.dbg.ldisasm = 0x555555555004 ∧
      SetSince pieHost .dump Debugger.ldump ns w ∧
      SetSince pieHost .disasm Debugger.ldisasm ns w := by
  obtain ⟨ns, w, hw, _, hs⟩ := exists_recorded (handle pieHost)
    (fun w i w' => decide (StartsFresh w i w')) Prod.mk
    (World.init (Demo.machine (Demo.pieProgram Demo.nops)))
    [.line ["load", "demo"], .line ["start"], .line ["x", "0x555555555000"],
      .line ["d", "0x555555555004"]]
    (fun w => w.dbg.stat = .running && w.dbg.ldump = 0x555555555050 &&
      w.dbg.ldisasm = 0x555555555004) (by decide +kernel)
  obtain ⟨hs, hdisasm⟩ := Bool.and_eq_true_iff.mp hs
  obtain ⟨hrun, hdump⟩ := Bool.and_eq_true_iff.mp hs
  have hdisasm : w.dbg.ldisasm = 0x555555555004 := of_decide_eq_true hdisasm
  have hdump : w.dbg.ldump = 0x555555555050 := of_decide_eq_true hdump
  have fresh := hw.mono fun _ _ _ h => of_decide_eq_true h
  obtain ⟨dump, disasm⟩ := cursors_current pieHost _ ns w fresh (of_decide_eq_true hrun)
  refine ⟨ns, w, hdump, hdisasm, dump.resolve_left ?_, disasm.resolve_left ?_⟩
  · rw [hdump]
    decide
  · rw [hdisasm]
    decide

/-- `disasm` before `start`: the cursor still points to where the file is linked. -/
theorem stale_cursor : ∃ (ns : List (World (Machine Demo.Hidden) × Input (Machine Demo.Hidden)))
    (w : World (Machine Demo.Hidden)),
    Recorded (handle pieHost) (fun _ _ _ => True) Prod.mk
        (World.init (Demo.machine (Demo.pieProgram Demo.nops))) ns w ∧
      w.dbg.stat = .running ∧ w.dbg.base = Demo.bias ∧ w.dbg.ldisasm = 0x1004 ∧
      ¬Current pieHost .disasm Debugger.ldisasm ns w := by
  obtain ⟨ns, w, hw, _, hs⟩ := exists_recorded (handle pieHost)
    (fun w _ _ => decide (w.dbg.stat ≠ .running)) Prod.mk
    (World.init (Demo.machine (Demo.pieProgram Demo.nops)))
    [.line ["load", "demo"], .line ["d", "0x1004"], .line ["start"]]
    (fun w => w.dbg.stat = .running && w.dbg.base = Demo.bias && w.dbg.ldisasm = 0x1004)
    (by decide +kernel)
  obtain ⟨hs, hcursor⟩ := Bool.and_eq_true_iff.mp hs
  obtain ⟨hrun, hbase⟩ := Bool.and_eq_true_iff.mp hs
  have hcursor : w.dbg.ldisasm = 0x1004 := of_decide_eq_true hcursor
  have idle : ∀ n ∈ ns, n.1.dbg.stat ≠ .running :=
    hw.noted fun _ _ _ h => of_decide_eq_true h
  refine ⟨ns, w, hw.mono fun _ _ _ _ => trivial, of_decide_eq_true hrun, of_decide_eq_true hbase,
    hcursor, ?_⟩
  rintro (hzero | ⟨pre, v, i, post, hsplit, _, running, _⟩)
  · rw [hcursor] at hzero
    cases hzero
  · exact idle (v, i) (by simp [hsplit]) running

end UnixProgramming.Sdb.Proofs
