import UnixProgramming.Sdb.Proofs.Lifetime

namespace UnixProgramming.Sdb.Proofs
open Lib

section
variable {η : Type} {T : Isa η} {fuel : Nat} {B : Host (Machine η)} {w w' : World (Machine η)}
  {i : Input (Machine η)}

/-- No instruction is met by a signal that kills. -/
def Tame (T : Isa η) : Prop := ∀ regs hidden m s dumped, T.exec regs hidden m ≠ .killed s dumped

/-- Every `fork` succeeds, and no fresh child dies of a signal. -/
def Fertile (m : Machine η) : Prop :=
  ∀ n, ∃ pid fate, m.spawns n = some (pid, fate) ∧ ∀ s dumped, fate ≠ .killed s dumped

/-- What the world outside does between two prompts leaves the child alone and every
`fork` possible. -/
def Gentle (w : World (Machine η)) (i : Input (Machine η)) (_ : World (Machine η)) : Prop :=
  ∀ move, i = .outside move →
    (move w.os).proc = w.os.proc ∧ (move w.os).pid = w.os.pid ∧ Fertile (move w.os)

/-- The next instruction ends the process. -/
def Ends (T : Isa η) (c : Child η) : Prop := ∃ code, c.step T = .halted (.exit code)

/-- The child `start` leaves behind for a program that `execvp` has loaded. -/
def startedChild (d : Debugger) (base : Word) (regs : Regs) (hidden : η) (image : Memory 64) :
    Child η :=
  { fresh regs hidden image with mem := overlay image (d.bp.map (·.addr + base)) 0xcc }

/-- The states in which `cont` and `run` go on after the child has ended. -/
def Fatal (T : Isa η) (B : Host (Machine η)) (w : World (Machine η)) : Option Builtin → Prop
  | some .cont => w.dbg.stat = .running ∧ ∃ c, Live w c ∧ Ends T (lifted w.dbg c)
  | some .run =>
    (w.dbg.stat = .running ∧
      ∃ c, Live w c ∧ w.dbg.bpFindByAddr (c.regs .rip) = none ∧ Ends T c) ∨
    (w.dbg.stat = .loaded ∧ ∃ pid fate, w.os.spawns w.os.forks = some (pid, fate) ∧
      match fate with
      | .exited _ => True
      | .killed _ _ => False
      | .ready regs hidden image => ∃ ptext base, w.dbg.ptextHdr = some ptext ∧
          base = baseOf ptext (beginOf B (w.os.spawned pid (fresh regs hidden image))
            (T.maps hidden)) ∧
          regs .rip ∉ w.dbg.bp.map (·.addr + base) ∧
          Ends T (startedChild w.dbg base regs hidden image))
  | _ => False

theorem step_not_killed (tame : Tame T) (c : Child η) (s : Signal) (dumped : Bool) :
    c.step T ≠ .halted (.killed s dumped) := by
  intro h
  unfold Child.step at h
  split at h
  · cases h
  · split at h
    · cases h
    · cases h
    · cases h
    · rename_i hk
      exact tame _ _ _ _ _ hk

theorem run_not_killed (tame : Tame T) {n : Nat} {c : Child η} {s : Signal} {dumped : Bool} :
    c.run T n ≠ some (.killed s dumped) := by
  induction n generalizing c with
  | zero => simp [Child.run]
  | succ n ih =>
    intro h
    unfold Child.run at h
    cases hs : c.step T with
    | on c' =>
      rw [hs] at h
      exact ih h
    | halted e =>
      rw [hs] at h
      cases h
      exact step_not_killed tame c s dumped hs

theorem go_not_killed (tame : Tame T) {how : Resume} {c : Child η} {s : Signal} {dumped : Bool} :
    c.go T fuel how ≠ some (.killed s dumped) := by
  cases how with
  | cont => exact run_not_killed tame
  | singlestep =>
    intro h
    unfold Child.go at h
    cases hs : c.step T with
    | on c' => rw [hs] at h; cases h
    | halted e =>
      rw [hs] at h
      cases h
      exact step_not_killed tame c s dumped hs

/-- A step that does not stop the child ends it with an exit. -/
theorem ends_iff (tame : Tame T) {c : Child η} {e : Halted η}
    (h : c.go T fuel .singlestep = some e) : Ends T c ↔ ∀ s c', e ≠ .stop s c' := by
  unfold Child.go at h
  unfold Ends
  cases hs : c.step T with
  | on c' =>
    rw [hs] at h
    cases h
    simp
  | halted e' =>
    rw [hs] at h
    cases h
    cases e with
    | stop s c' => simp
    | exit code => simp
    | killed s dumped => exact absurd hs (step_not_killed tame c s dumped)

theorem Waited.report {f : Child η → Child η} {e : Halted η} (h : Waited w f e w')
    (unkilled : ∀ s dumped, e ≠ .killed s dumped) : reportedKill w'.calls = reportedKill w.calls := by
  cases h with
  | stop s c w' dbg os calls =>
    rw [calls]
    simp [reportedKill, stop_stopped]
  | exit code w' dbg os calls =>
    rw [calls]
    simp [reportedKill, exit_exited]
  | killed s dumped w' dbg os calls => exact absurd rfl (unkilled s dumped)

theorem Conted.report {c : Child η} (tame : Tame T) (h : Conted T fuel w c w') :
    reportedKill w'.calls = reportedKill w.calls := by
  obtain ⟨s, c₁, w₁, e, _, hw₁, hgo, hw'⟩ := h
  have he : ∀ s dumped, e ≠ .killed s dumped := by
    intro s dumped hk
    exact go_not_killed tame (hk ▸ hgo)
  rw [hw'.report he, hw₁.report (by simp)]

theorem Started.report (h : Started T B w w') : reportedKill w'.calls = reportedKill w.calls := by
  cases h with
  | failed w' spawn dbg os calls => rw [calls]; rfl
  | ended pid fate st w' spawn dead dbg os calls => rw [calls]; rfl
  | ready pid regs hidden image ptext base w' spawn text bias dbg os calls => rw [calls]; rfl

theorem stopCalls_report {d : Debugger} {c c' : List Call} (h : StopCalls d c c') :
    reportedKill c' = reportedKill c := by
  cases h with
  | idle => rfl
  | killed => rfl
  | reaped _ res => cases res <;> rfl

/-- A tame tracee is never reported killed. -/
theorem turn_report (tame : Tame T) (turn : Turn T fuel B w i w') :
    reportedKill w'.calls = reportedKill w.calls := by
  cases turn with
  | outside move input effect => rw [effect]
  | calm same => rw [(calm_eq same).2.2]
  | set c regs live running same =>
    rw [(core_eq same).2.2]
    rfl
  | stepped c e live running found step waited =>
    refine waited.report ?_
    intro s dumped hk
    exact go_not_killed tame (hk ▸ step)
  | conted c live running found conted => exact conted.report tame
  | started loaded started => exact started.report
  | ran loaded w₁ c started live running free conted =>
    rw [conted.report tame, started.report]
  | placed target code accepted dbg os saved calls => rw [calls]
  | removed b bp found removed dbg os calls => rw [calls]
  | loaded idle bp os calls => exact stopCalls_report calls

theorem turn_fertile (turn : Turn T fuel B w i w') (gentle : Gentle w i w')
    (fertile : Fertile w.os) : Fertile w'.os := by
  rcases turn_spawns turn with same | ⟨move, hi, hos⟩
  · unfold Fertile
    rw [same]
    exact fertile
  · rw [hos]
    exact (gentle move hi).2.2

/-- The states of a session with a tame tracee. -/
structure TameInv (w : World (Machine η)) : Prop extends LifeInv w where
  fertile : Fertile w.os
  unreported : reportedKill w.calls = false
  text : TextInv w.dbg

theorem reached_tame {m : Machine η} (tame : Tame T) (none : m.proc = none) (fertile : Fertile m)
    (h : Reached (handle (machineHost T fuel B)) Gentle (World.init m) w) : TameInv w := by
  have hinv : LifeInv w ∧ Fertile w.os ∧ reportedKill w.calls = false := by
    refine h.invariant (I := fun w => LifeInv w ∧ Fertile w.os ∧ reportedKill w.calls = false) ?_ ?_
    · exact ⟨⟨.inl none, fun hr => by cases hr⟩, fertile, rfl⟩
    · intro w i w' _ inv gentle ran
      obtain ⟨life, hfertile, hreport⟩ := inv
      have turn := handle_turn life.tracked ran
      have outside : ∀ move, i = .outside move →
          (move w.os).proc = w.os.proc ∧ (move w.os).pid = w.os.pid :=
        fun move hi => ⟨(gentle move hi).1, (gentle move hi).2.1⟩
      have hreport' := (turn_report tame turn).trans hreport
      refine ⟨⟨turn_tracked turn life.tracked outside, ?_⟩, turn_fertile turn gentle hfertile, hreport'⟩
      exact turn_alive turn life.alive ⟨outside, hreport'⟩
  exact { toLifeInv := hinv.1, fertile := hinv.2.1, unreported := hinv.2.2, text := reached_text h }

theorem Stuck.fault {went : Option (Halted η)} {e : Halt} (h : Stuck w went e) : Fault e := by
  rcases h with ⟨he, _⟩ | ⟨he, _⟩
  · subst he
    exact fun _ hf => by cases hf
  · subst he
    exact fault_crash

theorem LifeInv.live (h : LifeInv w) (running : w.dbg.stat = .running) : ∃ c, Live w c := by
  rcases h.tracked with gone | ⟨c, live, _⟩
  · exact absurd gone (h.alive running)
  · exact ⟨c, live⟩

/-- `get` and `getregs` find the child they ask for. -/
theorem get_returns (h : LifeInv w) (argv : List String) :
    Wp (cmdGet (machineHost T fuel B) argv) (fun _ _ => True) (fun e _ => Fault e) w := by
  unfold cmdGet
  cases argv[1]? with
  | none => trivial
  | some name =>
    simp only [wp_bind, wp_dbg, wp_ite]
    refine ⟨fun _ => trivial, fun hr => ?_⟩
    obtain ⟨c, live⟩ := h.live (by simpa using hr)
    have hg : (machineHost T fuel B).getRegs w.dbg.pid w.os = some c.regs := by
      simp [machineHost, live.child]
    simp only [wp_ptraceGetRegs, hg]
    cases findReg name <;> trivial

theorem getregs_returns (h : LifeInv w) :
    Wp (cmdGetregs (machineHost T fuel B)) (fun _ _ => True) (fun e _ => Fault e) w := by
  simp only [cmdGetregs, wp_bind, wp_dbg, wp_ite]
  refine ⟨fun _ => trivial, fun hr => ?_⟩
  obtain ⟨c, live⟩ := h.live (by simpa using hr)
  have hg : (machineHost T fuel B).getRegs w.dbg.pid w.os = some c.regs := by
    simp [machineHost, live.child]
  simp only [wp_ptraceGetRegs, hg]
  trivial

theorem si_returns (h : LifeInv w) :
    Wp (cmdSi (machineHost T fuel B)) (fun _ _ => True) (fun e _ => Fault e) w := by
  by_cases running : w.dbg.stat = .running
  · obtain ⟨c, live⟩ := h.live running
    exact (si_live live running).mono (fun _ _ _ => trivial) (fun _ _ hs => hs.fault)
  · simp only [cmdSi, wp_bind, wp_dbg, wp_ite]
    exact ⟨fun _ => trivial, fun hr => absurd (by simpa using hr) running⟩

theorem start_returns (argv : List String) :
    Wp (cmdStart (machineHost T fuel B) argv) (fun _ _ => True) (fun e _ => Fault e) w := by
  cases hs : w.dbg.stat with
  | init =>
    simp only [cmdStart, wp_bind, wp_dbg, hs, if_true]
    trivial
  | loaded =>
    refine (start_loaded hs argv).mono (fun _ _ _ => trivial) ?_
    exact fun e _ he => he.1 ▸ fault_crash
  | running =>
    have hi : Stat.running ≠ Stat.init := by simp
    simp only [cmdStart, wp_bind, wp_dbg, hs, if_neg hi, if_true]
    trivial

/-- On a live child `cont` ends the debugger exactly when the first step ends the child. -/
theorem cont_returns (tame : Tame T) {c : Child η} (live : Live w c)
    (running : w.dbg.stat = .running) (n : Nat) (argv : List String) :
    Wp (cmdCont (machineHost T fuel B) (exec (machineHost T fuel B) (n + 1)) argv)
      (fun _ _ => ¬Ends T (lifted w.dbg c))
      (fun e _ => (Fault e ∧ (Ends T (lifted w.dbg c) → w.dbg.ptextHdr = none)) ∨
        (e = .exit 1 ∧ Ends T (lifted w.dbg c))) w := by
  obtain ⟨e, hgo⟩ := singlestep_halts T fuel (lifted w.dbg c)
  have hiff := ends_iff tame hgo
  by_cases ends : Ends T (lifted w.dbg c)
  · refine (cont_ended live running hgo (hiff.mp ends)).mono (fun _ _ hf => hf.elim) ?_
    intro e' _ he
    rcases he with he | ⟨he, ht⟩
    · exact .inr ⟨he, ends⟩
    · exact .inl ⟨he ▸ fault_crash, fun _ => ht⟩
  · cases e with
    | stop s c₁ =>
      refine (cont_live live running hgo).mono (fun _ _ _ => ends) ?_
      exact fun _ _ hs => .inl ⟨hs.fault, fun h => absurd h ends⟩
    | exit code => exact absurd (hiff.mpr (by simp)) ends
    | killed s dumped => exact absurd (hiff.mpr (by simp)) ends

/-- `run` behind `start` ends the debugger exactly when there is no child to go on with,
or `cont` steps it to its end. -/
theorem run_tail_returns (tame : Tame T) {c : Child η} (live : Live w c)
    (running : w.dbg.stat = .running) (n : Nat) (argv : List String) :
    Wp (do
        if (← bpCheck (machineHost T fuel B)).isNone then
          exec (machineHost T fuel B) (n + 2) (copyArgv "cont" argv))
      (fun _ _ => ¬(w.dbg.bpFindByAddr (c.regs .rip) = none ∧ Ends T c))
      (fun e _ => (Fault e ∧ (Ends T c → w.dbg.ptextHdr = none)) ∨
        (e = .exit 1 ∧ w.dbg.bpFindByAddr (c.regs .rip) = none ∧ Ends T c)) w := by
  rw [wp_bind, wp_bpCheck_live live, wp_ite]
  refine ⟨fun hf => ?_, fun hb => ?_⟩
  · have free : w.dbg.bpFindByAddr (c.regs .rip) = none := by simpa using hf
    have hl := lifted_free free
    rw [exec_cont]
    refine (cont_returns tame live running n (copyArgv "cont" argv)).mono ?_ ?_
    · intro _ _ hne hfe
      rw [hl] at hne
      exact hne hfe.2
    · intro e _ he
      rw [hl] at he
      rcases he with he | ⟨he, ends⟩
      · exact .inl he
      · exact .inr ⟨he, free, ends⟩
  · intro hfe
    rw [hfe.1] at hb
    exact hb rfl

/-- How a command ends that goes wrong exactly when `p` holds. -/
def EndsWhen (p : Prop) (c : DbgM (Machine η) Unit) (w : World (Machine η)) : Prop :=
  Wp c (fun _ _ => ¬p) (fun e _ => (Fault e ∧ ¬p) ∨ (e = .exit 1 ∧ p)) w

theorem EndsWhen.never {c : DbgM (Machine η) Unit}
    (h : Wp c (fun _ _ => True) (fun e _ => Fault e) w) : EndsWhen False c w :=
  h.mono (fun _ _ _ hf => hf) (fun _ _ he => .inl ⟨he, fun hf => hf⟩)

theorem Keeps.returns {γ : Type} {g : World (Machine η) → γ} {c : DbgM (Machine η) Unit}
    (h : Keeps g Fault c) : EndsWhen False c w :=
  .never ((h w).mono (fun _ _ _ => trivial) (fun _ _ he => he.2))

theorem cont_ends (tame : Tame T) (inv : TameInv w) (n : Nat) (argv : List String) :
    EndsWhen (Fatal T B w (some .cont))
      (cmdCont (machineHost T fuel B) (exec (machineHost T fuel B) (n + 1)) argv) w := by
  by_cases running : w.dbg.stat = .running
  · obtain ⟨c, live⟩ := inv.live running
    have hiff : Fatal T B w (some .cont) ↔ Ends T (lifted w.dbg c) := by
      constructor
      · intro hf
        obtain ⟨_, c', live', ends⟩ := hf
        rwa [live.unique live'] at ends
      · exact fun ends => ⟨running, c, live, ends⟩
    refine (cont_returns tame live running n argv).mono ?_ ?_
    · exact fun _ _ hne hf => hne (hiff.mp hf)
    · intro e _ he
      rcases he with ⟨hfault, ht⟩ | ⟨he, ends⟩
      · exact .inl ⟨hfault, fun hf => inv.text running (ht (hiff.mp hf))⟩
      · exact .inr ⟨he, hiff.mpr ends⟩
  · unfold EndsWhen
    simp only [cmdCont, wp_bind, wp_dbg, wp_ite]
    exact ⟨fun _ hf => running hf.1, fun hr => absurd (by simpa using hr) running⟩

/-- `run` goes wrong in RUNNING as `Fatal` says. -/
theorem run_running_ends (tame : Tame T) (inv : TameInv w) (running : w.dbg.stat = .running)
    (n : Nat) (argv : List String) :
    EndsWhen (Fatal T B w (some .run))
      (cmdRun (machineHost T fuel B) (exec (machineHost T fuel B) (n + 2)) argv) w := by
  obtain ⟨c, live⟩ := inv.live running
  have hiff : Fatal T B w (some .run) ↔
      w.dbg.bpFindByAddr (c.regs .rip) = none ∧ Ends T c := by
    constructor
    · intro hf
      rcases hf with ⟨_, c', live', hfe⟩ | ⟨loaded, _⟩
      · rwa [live.unique live'] at hfe
      · rw [running] at loaded
        cases loaded
    · exact fun hfe => .inl ⟨running, c, live, hfe⟩
  have hi : w.dbg.stat ≠ .init := by simp [running]
  have hl : w.dbg.stat ≠ .loaded := by simp [running]
  unfold EndsWhen
  simp only [cmdRun, wp_bind, wp_dbg, wp_ite]
  refine ⟨fun h => absurd h hi, fun _ => ⟨fun h => absurd h hl, fun _ => ?_⟩⟩
  rw [wp_errmsg]
  have live' : ∀ out, Live { w with out := out } c := fun out => ⟨live.proc, live.pid⟩
  refine Wp.mono (run_tail_returns tame (live' _) ?_ n argv) ?_ ?_
  · exact running
  · exact fun _ _ hne hf => hne (hiff.mp hf)
  · intro e _ he
    rcases he with ⟨hfault, ht⟩ | ⟨he, hfe⟩
    · exact .inl ⟨hfault, fun hf => inv.text running (ht (hiff.mp hf).2)⟩
    · exact .inr ⟨he, hiff.mpr hfe⟩

/-- Of a program that is gone before it runs, `run` misses the end. -/
theorem fatal_exited {pid : Nat} {code : BitVec 8} (loaded : w.dbg.stat = .loaded)
    (spawn : w.os.spawns w.os.forks = some (pid, .exited code)) : Fatal T B w (some .run) :=
  .inr ⟨loaded, pid, _, spawn, trivial⟩

/-- What `Fatal` says of `run` when the child comes to its first stop. -/
theorem fatal_ready {pid : Nat} {regs : Regs} {hidden : η} {image : Memory 64}
    (loaded : w.dbg.stat = .loaded)
    (spawn : w.os.spawns w.os.forks = some (pid, .ready regs hidden image)) :
    Fatal T B w (some .run) ↔ ∃ ptext base, w.dbg.ptextHdr = some ptext ∧
      base = baseOf ptext (beginOf B (w.os.spawned pid (fresh regs hidden image))
        (T.maps hidden)) ∧
      regs .rip ∉ w.dbg.bp.map (·.addr + base) ∧
      Ends T (startedChild w.dbg base regs hidden image) := by
  constructor
  · intro hf
    rcases hf with ⟨running, _⟩ | ⟨_, pid', fate, spawn', hf⟩
    · rw [loaded] at running
      cases running
    · rw [spawn] at spawn'
      cases spawn'
      exact hf
  · exact fun hf => .inr ⟨loaded, pid, _, spawn, hf⟩

theorem fatal_text {pid : Nat} {regs : Regs} {hidden : η} {image : Memory 64} {ptext : Phdr}
    {base : Word} (loaded : w.dbg.stat = .loaded)
    (spawn : w.os.spawns w.os.forks = some (pid, .ready regs hidden image))
    (text : w.dbg.ptextHdr = some ptext)
    (bias : base = baseOf ptext (beginOf B (w.os.spawned pid (fresh regs hidden image))
      (T.maps hidden))) :
    Fatal T B w (some .run) ↔ regs .rip ∉ w.dbg.bp.map (·.addr + base) ∧
      Ends T (startedChild w.dbg base regs hidden image) := by
  rw [fatal_ready loaded spawn]
  constructor
  · intro hf
    obtain ⟨ptext', base', text', bias', hf⟩ := hf
    rw [text] at text'
    cases text'
    rw [← bias] at bias'
    rwa [bias'] at hf
  · exact fun hf => ⟨ptext, base, text, bias, hf⟩

/-- `run` goes wrong in LOADED as `Fatal` says. -/
theorem run_loaded_ends (tame : Tame T) (inv : TameInv w) (loaded : w.dbg.stat = .loaded)
    (n : Nat) (argv : List String) :
    EndsWhen (Fatal T B w (some .run))
      (cmdRun (machineHost T fuel B) (exec (machineHost T fuel B) (n + 2)) argv) w := by
  have hi : w.dbg.stat ≠ .init := by simp [loaded]
  obtain ⟨pid, fate, spawn, lives⟩ := inv.fertile w.os.forks
  unfold EndsWhen
  simp only [cmdRun, wp_bind, wp_dbg, wp_ite]
  refine ⟨fun h => absurd h hi, fun _ => ⟨fun _ => ?_, fun h => absurd loaded h⟩⟩
  rw [exec_start]
  refine (start_loaded loaded _).mono ?_ ?_
  · intro _ w₁ hs
    cases hs with
    | failed w₁ none dbg os calls =>
      rw [spawn] at none
      cases none
    | ended pid' fate' st w₁ spawn' dead dbg os calls =>
      simp only [wp_bind]
      refine (bpCheck_gone (by rw [os])).mono (fun _ _ hf => hf.elim) ?_
      intro e _ he
      refine .inr ⟨he, ?_⟩
      rw [spawn] at spawn'
      cases spawn'
      cases fate with
      | exited code => exact fatal_exited loaded spawn
      | killed s dumped => exact absurd rfl (lives s dumped)
      | ready regs hidden image => exact absurd rfl (dead regs hidden image)
    | ready pid' regs hidden image ptext base w₁ spawn' text bias dbg os calls =>
      have live : Live w₁ (startedChild w.dbg base regs hidden image) :=
        ⟨by rw [os]; rfl, by rw [dbg, os]; rfl⟩
      have running : w₁.dbg.stat = .running := by rw [dbg]
      have htext : w₁.dbg.ptextHdr ≠ none := by
        rw [dbg]
        have ht : w.dbg.ptextHdr ≠ none := by simp [text]
        exact ht
      have hfree : w₁.dbg.bpFindByAddr (regs .rip) = none ↔
          regs .rip ∉ w.dbg.bp.map (·.addr + base) := by
        rw [bpFind_none, dbg]
        dsimp only
        rw [rebased_addrs]
      have hfatal := fatal_text (T := T) loaded spawn' text bias
      rw [← hfree] at hfatal
      refine (run_tail_returns tame live running n argv).mono ?_ ?_
      · exact fun _ _ hne hf => hne (hfatal.mp hf)
      · intro e _ he
        rcases he with ⟨hfault, ht⟩ | ⟨he, hfe⟩
        · exact .inl ⟨hfault, fun hf => htext (ht (hfatal.mp hf).2)⟩
        · exact .inr ⟨he, hfatal.mpr hfe⟩
  · intro e _ he
    obtain ⟨hcrash, htext, pid', regs, hidden, image, spawn'⟩ := he
    refine .inl ⟨hcrash ▸ fault_crash, ?_⟩
    intro hf
    obtain ⟨ptext, base, text, _⟩ := (fatal_ready loaded spawn').mp hf
    rw [htext] at text
    cases text

theorem run_ends (tame : Tame T) (inv : TameInv w) (n : Nat) (argv : List String) :
    EndsWhen (Fatal T B w (some .run))
      (cmdRun (machineHost T fuel B) (exec (machineHost T fuel B) (n + 2)) argv) w := by
  cases hs : w.dbg.stat with
  | init =>
    unfold EndsWhen
    simp only [cmdRun, wp_bind, wp_dbg, hs, if_true, wp_errmsg]
    intro hf
    rcases hf with ⟨running, _⟩ | ⟨loaded, _⟩
    · rw [hs] at running
      cases running
    · rw [hs] at loaded
      cases loaded
  | loaded => exact run_loaded_ends tame inv hs n argv
  | running => exact run_running_ends tame inv hs n argv

variable (fuel B) in
/-- Every command but `exit` goes wrong exactly when `Fatal` says so. -/
theorem builtin_ends (tame : Tame T) (inv : TameInv w) (b : Builtin) (stays : b ≠ .exit)
    (argv : List String) :
    EndsWhen (Fatal T B w (some b))
      (b.exec (machineHost T fuel B) (exec (machineHost T fuel B) 2) argv) w := by
  cases b with
  | exit => exact absurd rfl stays
  | load =>
    exact .never ((load_spec _ argv w).mono (fun _ _ _ => trivial) (fun _ _ he => he.1))
  | «break» =>
    refine .never ((break_spec _ argv w).mono (fun _ _ _ => trivial) ?_)
    exact fun _ _ he => he.1 ▸ fault_crash
  | delete =>
    exact .never ((delete_spec _ argv w).mono (fun _ _ _ => trivial) (fun _ _ he => he.elim))
  | start => exact .never (start_returns argv)
  | run => exact run_ends tame inv 0 argv
  | si => exact .never (si_returns inv.toLifeInv)
  | cont => exact cont_ends tame inv 1 argv
  | get => exact .never (get_returns inv.toLifeInv argv)
  | getregs => exact .never (getregs_returns inv.toLifeInv)
  | set =>
    refine .never ((set_turn inv.tracked argv).mono (fun _ _ _ => trivial) ?_)
    exact fun _ _ he => absurd he.2.1 (inv.alive he.2.2)
  | dump => exact (calm_dump _ argv).returns
  | disasm => exact (calm_disasm _ argv).returns
  | list => exact looks_list.returns
  | vmmap => exact (looks_vmmap _).returns
  | help => exact (looks_print _).returns

end

/-- With a tame tracee and a `fork` that succeeds, a command other than `exit` takes one
of the ERRQUIT branches exactly in the states of `Fatal`. -/
theorem errquit_iff_fatal {η : Type} (T : Isa η) (tame : Tame T) (fuel : Nat)
    (B : Host (Machine η)) (m : Machine η) (childless : m.proc = none) (fertile : Fertile m)
    (w : World (Machine η))
    (reached : Reached (handle (machineHost T fuel B)) Gentle (World.init m) w)
    (word : String) (argv : List String)
    (stays : lookup (machineHost T fuel B).list word ≠ some .exit) :
    (∃ code w', handle (machineHost T fuel B) (.line (word :: argv)) w = .error (.exit code) w') ↔
      Fatal T B w (lookup (machineHost T fuel B).list word) := by
  have inv := reached_tame tame childless fertile reached
  cases hf : lookup (machineHost T fuel B).list word with
  | none =>
    rw [handle, exec_unknown _ 2 hf]
    constructor
    · intro h
      obtain ⟨code, w', h⟩ := h
      cases h
    · exact fun h => h.elim
  | some b =>
    have hne : b ≠ .exit := fun he => stays (he ▸ hf)
    have hends := builtin_ends fuel B tame inv b hne (word :: argv)
    unfold EndsWhen at hends
    rw [handle, exec_found _ 2 hf]
    constructor
    · intro h
      obtain ⟨code, w', h⟩ := h
      rcases hends.error h with ⟨hfault, _⟩ | ⟨_, hfatal⟩
      · exact absurd rfl (hfault code)
      · exact hfatal
    · intro hfatal
      have hfail := hends.mono (fun _ _ hne => hne hfatal) (fun _ _ he => he)
      obtain ⟨e, w', he, hend⟩ := hfail.fails
      rcases hend with ⟨_, hne⟩ | ⟨hexit, _⟩
      · exact absurd hfatal hne
      · exact ⟨1, w', hexit ▸ he⟩

theorem unkilled_tame : Tame Demo.unkilled := by
  intro regs hidden m s dumped h
  unfold Demo.unkilled Demo.exec at h
  dsimp only at h
  rw [if_neg (by simp)] at h
  split at h
  · cases h
  · split at h
    · cases h
    · split at h
      · split at h <;> cases h
      · cases h

theorem program_fertile (bytes : List Byte) : Fertile (Demo.machine (Demo.program bytes)) := by
  intro n
  refine ⟨42, Demo.program bytes, rfl, ?_⟩
  intro s dumped h
  cases h

theorem typed_gentle {w w' : World (Machine η)} {i : Input (Machine η)} (h : typed i = true) :
    Gentle w i w' := by
  intro move hi
  subst hi
  cases h

theorem errquit_iff_fatal_demo : ∃ w : World (Machine Demo.Hidden), w.dbg.stat = .running ∧
    ¬∃ code w', handle (Demo.hostOf Demo.unkilled Demo.static) (.line ["cont"]) w =
      .error (.exit code) w' := by
  obtain ⟨w, hw, hs⟩ := exists_reached (handle (Demo.hostOf Demo.unkilled Demo.static))
    (fun _ i _ => typed i) (World.init (Demo.machine (Demo.program Demo.exits)))
    [.line ["load", "demo"], .line ["start"]]
    (fun w => checkStopped w fun c => ((lifted w.dbg c).step Demo.unkilled).went.isSome)
    (by decide +kernel)
  obtain ⟨running, c, live, steps⟩ := checked_stopped hs
  have gentle : Reached _ Gentle _ w := hw.mono fun _ _ _ hok => typed_gentle hok
  refine ⟨w, running, ?_⟩
  intro quits
  obtain ⟨_, c', live', code, ends⟩ := (errquit_iff_fatal Demo.unkilled unkilled_tame _ _ _ rfl
    (program_fertile _) w gentle "cont" [] (by decide)).mp quits
  obtain rfl := live.unique live'
  rw [ends] at steps
  cases steps

/-- The code of the `exit` a command ends in. -/
def exitCode {σ α : Type} : EStateM.Result Halt σ α → Option Int
  | .error (.exit code) _ => some code
  | _ => none

theorem exitCode_eq_some {σ α : Type} {r : EStateM.Result Halt σ α} {code : Int} :
    exitCode r = some code ↔ ∃ s, r = .error (.exit code) s := by
  cases r with
  | ok a s => simp [exitCode]
  | error e s => cases e <;> simp [exitCode]

/-- The step at the head of `cont` runs the child's last instruction, and the wait that
follows finds no child. -/
theorem cont_past_exit : Tame Demo.unkilled ∧ Fertile (Demo.machine (Demo.program Demo.exits)) ∧
    ∃ w : World (Machine Demo.Hidden),
      Reached (handle (Demo.hostOf Demo.unkilled Demo.static)) Gentle
        (World.init (Demo.machine (Demo.program Demo.exits))) w ∧
      ∃ w', handle (Demo.hostOf Demo.unkilled Demo.static) (.line ["cont"]) w =
        .error (.exit 1) w' := by
  refine ⟨unkilled_tame, program_fertile _, ?_⟩
  obtain ⟨w, hw, hs⟩ := exists_reached (handle (Demo.hostOf Demo.unkilled Demo.static))
    (fun _ i _ => typed i) (World.init (Demo.machine (Demo.program Demo.exits)))
    [.line ["load", "demo"], .line ["start"], .line ["si"]]
    (fun w => exitCode (handle (Demo.hostOf Demo.unkilled Demo.static) (.line ["cont"]) w) = some 1)
    (by decide +kernel)
  refine ⟨w, hw.mono fun _ _ _ hok => typed_gentle hok, ?_⟩
  exact exitCode_eq_some.mp (of_decide_eq_true hs)

end UnixProgramming.Sdb.Proofs
