import UnixProgramming.Sdb.Proofs.Edits
import UnixProgramming.Sdb.Proofs.Tracee

namespace UnixProgramming.Sdb.Proofs
open Lib

section
variable {η : Type}

/-- The only child there can be is the one the record names, and then it is stopped and
`stat` is RUNNING. -/
def Tracked (w : World (Machine η)) : Prop :=
  w.os.proc = none ∨ ∃ c, Live w c ∧ w.dbg.stat = .running

/-- One `cont` on the live child `c`. -/
def Conted (T : Isa η) (fuel : Nat) (w : World (Machine η)) (c : Child η)
    (w' : World (Machine η)) : Prop :=
  ∃ s c₁ w₁ e,
    (lifted w.dbg c).go T fuel .singlestep = some (.stop s c₁) ∧
    Waited w (fun c' => rearmed w.dbg (c.regs .rip) (rewind w.dbg c')) (.stop s c₁) w₁ ∧
    (rearmed w.dbg (c.regs .rip) (rewind w.dbg c₁)).go T fuel .cont = some e ∧
    Waited w₁ (rewind w.dbg) e w'

/-- The command an input runs. -/
def command (H : Host σ) : Input σ → Option Builtin
  | .line (word :: _) => lookup H.list word
  | _ => none

def arguments : Input σ → List String
  | .line argv => argv
  | _ => []

/-- What is typed to the debugger is no move of the world outside. -/
def typed : Input σ → Bool
  | .outside _ => false
  | _ => true

/-- The memory a `poke` leaves, if there is a child to receive it. -/
def poked (f : Child η → Child η) (w w' : World (Machine η)) : Prop :=
  (w.os.proc = none ∧ w'.os = w.os) ∨ ∃ c, Live w c ∧ w'.os = w.os.put (f c)

/-- Everything that can lie between two prompts on the machine. -/
inductive Turn (T : Isa η) (fuel : Nat) (B : Host (Machine η)) (w : World (Machine η))
    (i : Input (Machine η)) (w' : World (Machine η)) : Prop
  | outside (move : Machine η → Machine η) (input : i = .outside move)
      (effect : w' = { w with os := move w.os })
  | calm (same : calm w' = calm w)
  | set (c : Child η) (regs : Regs) (live : Live w c) (running : w.dbg.stat = .running)
      (same : core w' = core (World.put w { c with regs := regs }))
  | stepped (c : Child η) (e : Halted η) (live : Live w c) (running : w.dbg.stat = .running)
      (found : command (machineHost T fuel B) i = some .si)
      (step : (lifted w.dbg c).go T fuel .singlestep = some e)
      (waited : Waited w (fun c' => rearmed w.dbg (c.regs .rip) (rewind w.dbg c')) e w')
  | conted (c : Child η) (live : Live w c) (running : w.dbg.stat = .running)
      (found : command (machineHost T fuel B) i = some .cont ∨
        (command (machineHost T fuel B) i = some .run ∧ w.dbg.bpFindByAddr (c.regs .rip) = none))
      (conted : Conted T fuel w c w')
  | started (loaded : w.dbg.stat = .loaded) (started : Started T B w w')
  | ran (loaded : w.dbg.stat = .loaded) (w₁ : World (Machine η)) (c : Child η)
      (started : Started T B w w₁) (live : Live w₁ c) (running : w₁.dbg.stat = .running)
      (free : w₁.dbg.bpFindByAddr (c.regs .rip) = none) (conted : Conted T fuel w₁ c w')
  | placed (target code : Word) (accepted : accepted w.dbg (arguments i) = some target)
      (dbg : w'.dbg = { w.dbg with
        bpi := w.dbg.bpi + 1, bp := w.dbg.bp ++ [⟨w.dbg.bpi, target, code⟩] })
      (os : poked (fun c => { c with mem := arm c.mem target }) w w')
      (saved : ∀ c, Live w c → code = load 8 c.mem target) (calls : w'.calls = w.calls)
  | removed (b : BreakPt) (bp : List BreakPt)
      (found : command (machineHost T fuel B) i = some .delete)
      (removed : removed w.dbg (arguments i) = some (b, bp)) (dbg : w'.dbg = { w.dbg with bp := bp })
      (os : poked (fun c => { c with mem := store 8 c.mem b.addr b.code }) w w')
      (calls : w'.calls = w.calls)
  | loaded (idle : w'.dbg.stat ≠ .running) (bp : w'.dbg.bp = w.dbg.bp ∨ w'.dbg.bp = []) (os : w'.os = { w.os with proc := none })
      (calls : StopCalls w.dbg w.calls w'.calls)

variable {T : Isa η} {fuel : Nat} {B : Host (Machine η)} {w w' : World (Machine η)}
  {i : Input (Machine η)}

theorem Live.unique {c c' : Child η} (h : Live w c) (h' : Live w c') : c' = c := by
  have hc := h'.proc.symm.trans h.proc
  cases hc
  rfl

theorem Live.not_gone {c : Child η} (h : Live w c) : w.os.proc ≠ none := by
  rw [h.proc]
  simp

theorem Tracked.gone_of (h : Tracked w) (idle : w.dbg.stat ≠ .running) : w.os.proc = none := by
  rcases h with hn | ⟨c, _, hr⟩
  · exact hn
  · exact absurd hr idle

theorem bpCheck_gone (gone : w.os.proc = none) :
    Wp (bpCheck (machineHost T fuel B)) (fun _ _ => False) (fun e _ => e = .exit 1) w := by
  have hg : (machineHost T fuel B).getRegs w.dbg.pid w.os = none := by
    simp [machineHost, Machine.child, gone]
  simp only [bpCheck, wp_bind, wp_dbg, wp_ptraceGetRegs, hg]
  exact rfl

theorem si_gone (gone : w.os.proc = none) (running : w.dbg.stat = .running) :
    Wp (cmdSi (machineHost T fuel B)) (fun _ _ => False) (fun e _ => e = .exit 1) w := by
  simp only [cmdSi, wp_bind, wp_dbg, wp_ite]
  refine ⟨fun hn => absurd running hn, fun _ => ?_⟩
  exact (bpCheck_gone gone).mono (fun _ _ hf => hf.elim) (fun _ _ he => he)

theorem set_turn (h : Tracked w) (argv : List String) :
    Wp (cmdSet (machineHost T fuel B) argv)
      (fun _ w' => core w' = core w ∨ ∃ c regs, Live w c ∧ w.dbg.stat = .running ∧
        core w' = core (World.put w { c with regs := regs }))
      (fun e _ => e = .exit 1 ∧ w.os.proc = none ∧ w.dbg.stat = .running) w := by
  unfold cmdSet
  cases argv[1]? with
  | none => exact .inl rfl
  | some name =>
    cases argv[2]? with
    | none => exact .inl rfl
    | some text =>
      simp only [wp_bind, wp_dbg, wp_ite]
      refine ⟨fun _ => .inl rfl, fun hr => ?_⟩
      have running : w.dbg.stat = .running := by simpa using hr
      rcases h with gone | ⟨c, live, _⟩
      · have hg : (machineHost T fuel B).getRegs w.dbg.pid w.os = none := by
          simp [machineHost, Machine.child, gone]
        simp only [wp_ptraceGetRegs, hg]
        exact ⟨rfl, gone, running⟩
      · have hc := live.child
        have hg : (machineHost T fuel B).getRegs w.dbg.pid w.os = some c.regs := by
          simp [machineHost, hc]
        simp only [wp_ptraceGetRegs, hg]
        cases findReg name with
        | none => exact .inl rfl
        | some r =>
          have hs : ∀ regs, (machineHost T fuel B).setRegs w.dbg.pid regs w.os =
              (true, w.os.put { c with regs := regs }) := by
            intro regs
            simp [machineHost, Machine.setRegs, hc]
          simp only [wp_bind, wp_ptraceSetRegs, hs, wp_ite, wp_pure]
          exact ⟨fun _ => .inr ⟨c, _, live, running, rfl⟩, fun hf => absurd trivial hf⟩

theorem si_turn (h : Tracked w) :
    Wp (cmdSi (machineHost T fuel B))
      (fun _ w' => calm w' = calm w ∨ ∃ c e, Live w c ∧ w.dbg.stat = .running ∧
        (lifted w.dbg c).go T fuel .singlestep = some e ∧
        Waited w (fun c' => rearmed w.dbg (c.regs .rip) (rewind w.dbg c')) e w')
      (fun _ _ => True) w := by
  by_cases running : w.dbg.stat = .running
  · rcases h with gone | ⟨c, live, _⟩
    · exact (si_gone gone running).mono (fun _ _ hf => hf.elim) (fun _ _ _ => trivial)
    · refine (si_live live running).mono ?_ (fun _ _ _ => trivial)
      intro _ w' hend
      obtain ⟨e, hgo, hw⟩ := hend
      exact .inr ⟨c, e, live, running, hgo, hw⟩
  · simp only [cmdSi, wp_bind, wp_dbg, wp_ite]
    exact ⟨fun _ => .inl rfl, fun hr => absurd (by simpa using hr) running⟩

theorem cont_running (h : Tracked w) (running : w.dbg.stat = .running) (n : Nat)
    (argv : List String) :
    Wp (cmdCont (machineHost T fuel B) (exec (machineHost T fuel B) (n + 1)) argv)
      (fun _ w' => ∃ c, Live w c ∧ Conted T fuel w c w') (fun _ _ => True) w := by
  rcases h with gone | ⟨c, live, _⟩
  · simp only [cmdCont, wp_bind, wp_dbg, wp_ite]
    refine ⟨fun hn => absurd running hn, fun _ => ?_⟩
    rw [exec_si]
    exact (si_gone gone running).mono (fun _ _ hf => hf.elim) (fun _ _ _ => trivial)
  · obtain ⟨e, hgo⟩ := singlestep_halts T fuel (lifted w.dbg c)
    by_cases ended : ∀ s c', e ≠ .stop s c'
    · exact (cont_ended live running hgo ended).mono (fun _ _ hf => hf.elim) (fun _ _ _ => trivial)
    · cases e with
      | stop s c₁ =>
        refine (cont_live live running hgo).mono ?_ (fun _ _ _ => trivial)
        intro _ w' hend
        obtain ⟨w₁, e, hw₁, hgo', hw'⟩ := hend
        exact ⟨c, live, s, c₁, w₁, e, hgo, hw₁, hgo', hw'⟩
      | exit code => exact absurd (by simp) ended
      | killed s dumped => exact absurd (by simp) ended

theorem cont_turn (h : Tracked w) (n : Nat) (argv : List String) :
    Wp (cmdCont (machineHost T fuel B) (exec (machineHost T fuel B) (n + 1)) argv)
      (fun _ w' => calm w' = calm w ∨
        ∃ c, Live w c ∧ w.dbg.stat = .running ∧ Conted T fuel w c w')
      (fun _ _ => True) w := by
  by_cases running : w.dbg.stat = .running
  · refine (cont_running h running n argv).mono ?_ (fun _ _ _ => trivial)
    intro _ w' hend
    obtain ⟨c, live, hc⟩ := hend
    exact .inr ⟨c, live, running, hc⟩
  · simp only [cmdCont, wp_bind, wp_dbg, wp_ite]
    exact ⟨fun _ => .inl rfl, fun hr => absurd (by simpa using hr) running⟩

/-- The part of `cmd_run` behind `start`. -/
theorem run_tail (h : Tracked w) (running : w.dbg.stat = .running) (n : Nat) (argv : List String) :
    Wp (do
        if (← bpCheck (machineHost T fuel B)).isNone then
          exec (machineHost T fuel B) (n + 2) (copyArgv "cont" argv))
      (fun _ w' => core w' = core w ∨ ∃ c, Live w c ∧
        w.dbg.bpFindByAddr (c.regs .rip) = none ∧ Conted T fuel w c w')
      (fun _ _ => True) w := by
  rw [wp_bind]
  rcases h with gone | ⟨c, live, _⟩
  · exact (bpCheck_gone gone).mono (fun _ _ hf => hf.elim) (fun _ _ _ => trivial)
  · rw [wp_bpCheck_live live, wp_ite]
    refine ⟨fun hf => ?_, fun _ => .inl rfl⟩
    have free : w.dbg.bpFindByAddr (c.regs .rip) = none := by simpa using hf
    rw [exec_cont]
    refine (cont_running (.inr ⟨c, live, running⟩) running n _).mono ?_ (fun _ _ _ => trivial)
    intro _ w' hend
    obtain ⟨c', live', hc⟩ := hend
    rw [live.unique live'] at hc
    exact .inr ⟨c, live, free, hc⟩

theorem Started.gone (h : Started T B w w') (gone : w.os.proc = none)
    (idle : w'.dbg.stat ≠ .running) : w'.os.proc = none := by
  cases h with
  | failed w' spawn dbg os calls => rw [os]; exact gone
  | ended pid fate st w' spawn dead dbg os calls => rw [os]
  | ready pid regs hidden image ptext base w' spawn text bias dbg os calls =>
    exact absurd (by rw [dbg]) idle

theorem Started.live (h : Started T B w w') (running : w'.dbg.stat = .running)
    (loaded : w.dbg.stat = .loaded) : ∃ c, Live w' c := by
  cases h with
  | failed w' spawn dbg os calls =>
    rw [dbg] at running
    exact absurd (running.symm.trans loaded) (by simp)
  | ended pid fate st w' spawn dead dbg os calls =>
    rw [dbg] at running
    exact absurd (running.symm.trans loaded) (by simp)
  | ready pid regs hidden image ptext base w' spawn text bias dbg os calls =>
    exact ⟨_, by rw [os]; rfl, by rw [dbg, os]; rfl⟩

theorem Started.of_core {w₁ : World (Machine η)} (h : Started T B w w₁)
    (same : core w' = core w₁) : Started T B w w' := by
  obtain ⟨hd, ho, hc⟩ := core_eq same
  cases h with
  | failed w₁ spawn dbg os calls =>
    exact .failed w' spawn (hd.trans dbg) (ho.trans os) (hc.trans calls)
  | ended pid fate st w₁ spawn dead dbg os calls =>
    exact .ended pid fate st w' spawn dead (hd.trans dbg) (ho.trans os) (hc.trans calls)
  | ready pid regs hidden image ptext base w₁ spawn text bias dbg os calls =>
    exact .ready pid regs hidden image ptext base w' spawn text bias (hd.trans dbg) (ho.trans os)
      (hc.trans calls)

theorem run_turn (h : Tracked w) (n : Nat) (argv : List String) :
    Wp (cmdRun (machineHost T fuel B) (exec (machineHost T fuel B) (n + 2)) argv)
      (fun _ w' => calm w' = calm w ∨
        (∃ c, Live w c ∧ w.dbg.stat = .running ∧ w.dbg.bpFindByAddr (c.regs .rip) = none ∧
          Conted T fuel w c w') ∨
        (w.dbg.stat = .loaded ∧ Started T B w w') ∨
        (w.dbg.stat = .loaded ∧ ∃ w₁ c, Started T B w w₁ ∧ Live w₁ c ∧ w₁.dbg.stat = .running ∧
          w₁.dbg.bpFindByAddr (c.regs .rip) = none ∧ Conted T fuel w₁ c w'))
      (fun _ _ => True) w := by
  simp only [cmdRun, wp_bind, wp_dbg, wp_ite]
  refine ⟨fun _ => .inl rfl, fun hi => ⟨fun hl => ?_, fun hl => ?_⟩⟩
  · rw [exec_start]
    refine (start_loaded hl _).mono ?_ (fun _ _ _ => trivial)
    intro _ w₁ hs
    have gone := h.gone_of (by simp [hl])
    by_cases running : w₁.dbg.stat = .running
    · obtain ⟨c, live⟩ := hs.live running hl
      refine (run_tail (.inr ⟨c, live, running⟩) running n argv).mono ?_ (fun _ _ _ => trivial)
      intro _ w' hend
      rcases hend with hcore | ⟨c', live', free, hcont⟩
      · exact .inr (.inr (.inl ⟨hl, hs.of_core hcore⟩))
      · exact .inr (.inr (.inr ⟨hl, w₁, c', hs, live', running, free, hcont⟩))
    · simp only [wp_bind]
      exact (bpCheck_gone (hs.gone gone running)).mono (fun _ _ hf => hf.elim) (fun _ _ _ => trivial)
  · have running : w.dbg.stat = .running := by
      cases hs : w.dbg.stat with
      | init => exact absurd hs hi
      | loaded => exact absurd hs hl
      | running => rfl
    rw [wp_errmsg]
    have ht : ∀ out, Tracked { w with out := out } := by
      intro out
      rcases h with gone | ⟨c, live, hr⟩
      · exact .inl gone
      · exact .inr ⟨c, ⟨live.proc, live.pid⟩, hr⟩
    refine Wp.mono (run_tail (ht _) ?_ n argv) ?_ (fun _ _ _ => trivial)
    · exact running
    intro _ w' hend
    rcases hend with hcore | ⟨c, live, free, hcont⟩
    · exact .inl (calm_of_core hcore)
    · refine .inr (.inl ⟨c, ⟨live.proc, live.pid⟩, running, free, ?_⟩)
      obtain ⟨s, c₁, w₁, e, hgo, hw₁, hgo', hw'⟩ := hcont
      refine ⟨s, c₁, w₁, e, hgo, ?_, hgo', hw'⟩
      cases hw₁ with
      | stop s c₁ w₁ dbg os calls => exact .stop s c₁ w₁ dbg os calls

theorem start_turn (argv : List String) :
    Wp (cmdStart (machineHost T fuel B) argv)
      (fun _ w' => calm w' = calm w ∨ (w.dbg.stat = .loaded ∧ Started T B w w'))
      (fun _ _ => True) w := by
  cases hs : w.dbg.stat with
  | init =>
    simp only [cmdStart, wp_bind, wp_dbg, hs, if_true, wp_errmsg]
    exact .inl rfl
  | loaded =>
    refine (start_loaded hs argv).mono ?_ (fun _ _ _ => trivial)
    exact fun _ w' hw => .inr ⟨rfl, hw⟩
  | running =>
    have hi : Stat.running ≠ Stat.init := by simp
    simp only [cmdStart, wp_bind, wp_dbg, hs, if_neg hi, if_true, wp_errmsg]
    exact .inl rfl

theorem break_turn (h : Tracked w) (argv : List String) :
    Wp (cmdBreak (machineHost T fuel B) argv)
      (fun _ w' => calm w' = calm w ∨ ∃ target code, accepted w.dbg argv = some target ∧
        w'.dbg = { w.dbg with
          bpi := w.dbg.bpi + 1, bp := w.dbg.bp ++ [⟨w.dbg.bpi, target, code⟩] } ∧
        poked (fun c => { c with mem := arm c.mem target }) w w' ∧
        (∀ c, Live w c → code = load 8 c.mem target) ∧ w'.calls = w.calls)
      (fun _ _ => True) w := by
  unfold cmdBreak accepted
  cases argv[1]? with
  | none => exact .inl rfl
  | some text =>
    simp only [wp_bind, wp_dbg, wp_ite]
    refine ⟨fun _ => .inl rfl, fun hl => ?_⟩
    have hs : w.dbg.stat ≠ .init := by
      intro hi
      simp [hi] at hl
    cases ht : w.dbg.stextHdr with
    | none => exact trivial
    | some stext =>
      simp only [wp_deref_some, wp_ite, if_neg hs]
      refine ⟨fun _ => .inl rfl, fun hr => ⟨fun _ => .inl rfl, fun hf => ?_⟩⟩
      simp only [if_neg hr, if_neg hf]
      rw [wp_bind, wp_setDbg, wp_ite]
      refine ⟨fun running => ?_, fun idle => ?_⟩
      · rw [wp_bind]
        rcases h with gone | ⟨c, live, _⟩
        · refine Wp.mono (bpPatch_gone ?_ _) ?_ (fun _ _ hf => hf.elim)
          · exact gone
          · intro code w₁ hcore
            obtain ⟨hd, ho, hc⟩ := core_eq hcore
            rw [wp_setDbg]
            refine .inr ⟨strtoll text, code, rfl, ?_, .inl ⟨gone, ho⟩, ?_, hc⟩
            · dsimp only
              rw [hd]
            · exact fun c live => absurd gone live.not_gone
        · have live' : Live { w with dbg := { w.dbg with bpi := w.dbg.bpi + 1 } } c :=
            ⟨live.proc, live.pid⟩
          rw [wp_bpPatch_live live', wp_setDbg]
          refine .inr ⟨strtoll text, _, rfl, rfl, .inr ⟨c, live, rfl⟩, ?_, rfl⟩
          intro c' live''
          rw [live.unique live'']
      · have gone := h.gone_of idle
        rw [wp_bind, wp_pure, wp_setDbg]
        refine .inr ⟨strtoll text, 0, rfl, rfl, .inl ⟨gone, rfl⟩, ?_, rfl⟩
        exact fun c live => absurd gone live.not_gone

theorem delete_turn (h : Tracked w) (argv : List String) :
    Wp (cmdDelete (machineHost T fuel B) argv)
      (fun _ w' => calm w' = calm w ∨ ∃ b bp, removed w.dbg argv = some (b, bp) ∧
        w'.dbg = { w.dbg with bp := bp } ∧
        poked (fun c => { c with mem := store 8 c.mem b.addr b.code }) w w' ∧ w'.calls = w.calls)
      (fun _ _ => True) w := by
  unfold cmdDelete removed
  cases argv[1]? with
  | none => exact .inl rfl
  | some text =>
    simp only [wp_bind, wp_dbg, Option.bind_some]
    cases unlink (atoi text) w.dbg.bp with
    | none => exact .inl rfl
    | some r =>
      obtain ⟨b, bp⟩ := r
      simp only [wp_bind, wp_setDbg]
      rcases h with gone | ⟨c, live, _⟩
      · have hp : ∀ pid a v, (machineHost T fuel B).poke pid a v w.os = (false, w.os) := by
          intro pid a v
          simp [machineHost, Machine.poke, Machine.child, gone]
        simp only [bpUnpatch, wp_bind, wp_dbg, wp_ptracePoke, hp, wp_ite, wp_errmsg]
        refine ⟨fun hf => absurd hf (by simp), fun _ => ?_⟩
        exact .inr ⟨b, bp, rfl, rfl, .inl ⟨gone, rfl⟩, trivial⟩
      · have live' : Live { w with dbg := { w.dbg with bp := bp } } c := ⟨live.proc, live.pid⟩
        rw [wp_bpUnpatch_live live', wp_errmsg]
        exact .inr ⟨b, bp, rfl, rfl, .inr ⟨c, live, rfl⟩, rfl⟩

theorem os_gone (gone : w.os.proc = none) : { w.os with proc := none } = w.os := by
  rw [← gone]

theorem killChild_turn (h : Tracked w) :
    Wp (killChild (machineHost T fuel B)) (fun _ w' => w'.os = { w.os with proc := none })
      (fun _ _ => False) w := by
  simp only [killChild, wp_bind, wp_dbg, wp_sysKill, wp_ite, wp_pure]
  rcases h with gone | ⟨c, live, _⟩
  · have hk : (machineHost T fuel B).kill w.dbg.pid w.os = (false, w.os) := by
      simp [machineHost, Machine.kill, gone]
    rw [hk]
    exact ⟨fun hf => absurd hf (by simp), fun _ => (os_gone gone).symm⟩
  · have hk : (machineHost T fuel B).kill w.dbg.pid w.os =
        (true, { w.os with proc := some (.zombie (killStatus SIGKILL false)) }) := by
      simp [machineHost, Machine.kill, live.proc, live.pid]
    rw [hk]
    refine ⟨fun _ => ?_, fun hf => absurd rfl hf⟩
    have hw : (machineHost T fuel B).waitpid w.dbg.pid
        { w.os with proc := some (.zombie (killStatus SIGKILL false)) } =
        (.status (killStatus SIGKILL false), { w.os with proc := none }) := by
      simp [machineHost, Machine.waitpid, live.pid]
    rw [wp_wait_status hw]
    exact rfl

theorem freeDebugger_turn (h : Tracked w) :
    Wp (freeDebugger (machineHost T fuel B)) (fun _ w' => w'.os = { w.os with proc := none })
      (fun e _ => e = .crash ∧ w.dbg.stat = .running) w := by
  simp only [freeDebugger, resetDebugger, stopDebugger, wp_bind, wp_dbg, wp_ite, wp_pure, wp_setDbg]
  refine ⟨fun hi => ?_, fun _ => ⟨fun hr => ?_, fun hr => ?_⟩⟩
  · exact (os_gone (h.gone_of (by simp [hi]))).symm
  · refine (killChild_turn h).mono ?_ (fun _ _ hf => hf.elim)
    intro _ w₁ ho
    cases w.dbg.ptextHdr with
    | none => exact ⟨rfl, hr⟩
    | some ptext =>
      simp only [wp_deref_some, wp_ite, wp_setDbg, wp_bind]
      exact ⟨fun _ => ho, fun _ => ho⟩
  · exact (os_gone (h.gone_of hr)).symm

theorem load_turn (h : Tracked w) (word name : String) (argv : List String) :
    Wp (cmdLoad (machineHost T fuel B) (word :: name :: argv))
      (fun _ w' => w'.os = { w.os with proc := none }) (fun _ _ => True) w := by
  simp only [cmdLoad, List.getElem?_cons_succ, List.getElem?_cons_zero, wp_bind, wp_dbg, wp_ite]
  refine ⟨fun _ => ?_, fun hi => ?_⟩
  · refine Wp.mono ((freeDebugger_turn h).and (freeDebugger_spec _ w)) ?_ (fun _ _ _ => trivial)
    intro _ w₁ hw
    obtain ⟨ho, ⟨d, _, hd⟩, _⟩ := hw
    refine (loadFile_spec _ name w₁ (by rw [hd]; rfl)).mono ?_ (fun _ _ _ => trivial)
    intro _ w₂ hl
    exact hl.2.1.trans ho
  · have hs : w.dbg.stat = .init := by
      cases h : w.dbg.stat <;> simp_all
    refine (loadFile_spec _ name w hs).mono ?_ (fun _ _ _ => trivial)
    intro _ w₁ hl
    have gone := h.gone_of (by simp [hs])
    exact hl.2.1.trans (os_gone gone).symm

theorem turn_or_calm {p : Prop} (h : calm w' = calm w ∨ p) (hp : p → Turn T fuel B w i w') :
    Turn T fuel B w i w' := by
  rcases h with hcalm | h
  · exact .calm hcalm
  · exact hp h

/-- The lines a command reads with nothing but the child's state stay what they were. -/
theorem quiet_turn (h : Tracked w) {word : String} {argv : List String} {b : Builtin}
    (found : lookup (machineHost T fuel B).list word = some b) (hq : quiet b = true)
    (ran : b.exec (machineHost T fuel B) (exec (machineHost T fuel B) 2) (word :: argv) w = .ok () w') :
    Turn T fuel B w (.line (word :: argv)) w' := by
  cases b with
  | load => cases hq
  | «break» => cases hq
  | delete => cases hq
  | exit => cases hq
  | start =>
    refine turn_or_calm ((start_turn (word :: argv)).ok ran) ?_
    exact fun hs => .started hs.1 hs.2
  | run =>
    refine turn_or_calm ((run_turn h 0 (word :: argv)).ok ran) ?_
    intro hr
    rcases hr with ⟨c, live, running, free, hc⟩ | ⟨hl, hs⟩ | ⟨hl, w₁, c, hs, live, running, free, hc⟩
    · exact .conted c live running (.inr ⟨found, free⟩) hc
    · exact .started hl hs
    · exact .ran hl w₁ c hs live running free hc
  | si =>
    refine turn_or_calm ((si_turn h).ok ran) ?_
    intro hs
    obtain ⟨c, e, live, running, hgo, hw⟩ := hs
    exact .stepped c e live running found hgo hw
  | cont =>
    refine turn_or_calm ((cont_turn h 1 (word :: argv)).ok ran) ?_
    intro hc
    obtain ⟨c, live, running, hc⟩ := hc
    exact .conted c live running (.inl found) hc
  | get => exact .calm (calm_of_core ((reads_get _ (word :: argv) w).ok ran))
  | getregs => exact .calm (calm_of_core ((reads_getregs _ w).ok ran))
  | set =>
    rcases (set_turn h (word :: argv)).ok ran with hcore | ⟨c, regs, live, running, hcore⟩
    · exact .calm (calm_of_core hcore)
    · exact .set c regs live running hcore
  | dump => exact .calm ((calm_dump _ (word :: argv) w).ok ran)
  | disasm => exact .calm ((calm_disasm _ (word :: argv) w).ok ran)
  | list => exact .calm ((looks_list.calm w).ok ran)
  | vmmap => exact .calm (((looks_vmmap _).calm w).ok ran)
  | help => exact .calm (((looks_print _).calm w).ok ran)

theorem handle_turn (h : Tracked w) (ran : handle (machineHost T fuel B) i w = .ok () w') :
    Turn T fuel B w i w' := by
  cases i with
  | outside move =>
    cases ran
    exact .outside move rfl rfl
  | eof => exact ((exit_spec _ w).ok ran).elim
  | line argv =>
    cases argv with
    | nil => cases ran
    | cons word argv =>
      cases hf : lookup (machineHost T fuel B).list word with
      | none =>
        rw [handle, exec_unknown _ 2 hf] at ran
        cases ran
        exact .calm rfl
      | some b =>
        rw [handle, exec_found _ 2 hf] at ran
        cases hq : quiet b with
        | true => exact quiet_turn h hf hq ran
        | false =>
          cases b with
          | load =>
            cases argv with
            | nil =>
              cases ran
              exact .calm rfl
            | cons name argv =>
              have ho := (load_turn h word name argv).ok ran
              obtain ⟨hc, hr⟩ := (load_spec _ (word :: name :: argv) w).ok ran
              exact .loaded (hr.idle (cleared_init _)) hr.bp ho hc
          | «break» =>
            refine turn_or_calm ((break_turn h (word :: argv)).ok ran) ?_
            intro hb
            obtain ⟨target, code, ha, hd, ho, hs, hc⟩ := hb
            exact .placed target code ha hd ho hs hc
          | delete =>
            refine turn_or_calm ((delete_turn h (word :: argv)).ok ran) ?_
            intro hd
            obtain ⟨b, bp, hr, hd, ho, hc⟩ := hd
            exact .removed b bp hf hr hd ho hc
          | exit => exact ((exit_spec _ w).ok ran).elim
          | _ => cases hq

end

end UnixProgramming.Sdb.Proofs
