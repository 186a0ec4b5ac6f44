import UnixProgramming.Sdb.Proofs.Session
import UnixProgramming.Sdb.Proofs.Turns

namespace UnixProgramming.Sdb.Proofs
open Lib

/-- A wait in `cmd` has reported that a signal ended the child. -/
def reportedKill : List Call → Bool
  | [] => false
  | .wait .cmd _ (some st) :: c => (!WIFEXITED st && !WIFSTOPPED st) || reportedKill c
  | _ :: c => reportedKill c

section
variable {η : Type} {T : Isa η} {fuel : Nat} {B : Host (Machine η)} {w w' : World (Machine η)}
  {i : Input (Machine η)}

/-- `pid` names a child that has neither ended nor been reaped. -/
def Alive (m : Machine η) (pid : Int) : Prop :=
  pid = m.pid ∧ ∃ p, m.proc = some p ∧ ∀ status, p ≠ .zombie status

/-- Nothing outside touches the child, and no signal ends it. -/
structure Unkilled (w : World (Machine η)) (i : Input (Machine η)) (w' : World (Machine η)) :
    Prop where
  outside : ∀ move, i = .outside move →
    (move w.os).proc = w.os.proc ∧ (move w.os).pid = w.os.pid
  report : reportedKill w'.calls = false

theorem calm_eq {σ : Type} {w w' : World σ} (h : calm w' = calm w) :
    { w'.dbg with ldump := 0, ldisasm := 0 } = { w.dbg with ldump := 0, ldisasm := 0 } ∧
      w'.os = w.os ∧ w'.calls = w.calls := by
  obtain ⟨hd, ho⟩ := Prod.mk.inj h
  obtain ⟨ho, hc⟩ := Prod.mk.inj ho
  exact ⟨hd, ho, hc⟩

theorem calm_stat {σ : Type} {w w' : World σ} (h : calm w' = calm w) :
    w'.dbg.stat = w.dbg.stat := by
  have hs := congrArg Debugger.stat (calm_eq h).1
  exact hs

theorem calm_pid {σ : Type} {w w' : World σ} (h : calm w' = calm w) : w'.dbg.pid = w.dbg.pid := by
  have hp := congrArg Debugger.pid (calm_eq h).1
  exact hp

/-- The child, if there is one, as `Tracked` has it, with the same record entries and machine. -/
theorem Tracked.same (h : Tracked w) (stat : w'.dbg.stat = w.dbg.stat)
    (pid : w'.dbg.pid = w.dbg.pid) (proc : w'.os.proc = w.os.proc) (mpid : w'.os.pid = w.os.pid) :
    Tracked w' := by
  rcases h with gone | ⟨c, live, running⟩
  · exact .inl (proc.trans gone)
  · exact .inr ⟨c, ⟨proc.trans live.proc, by rw [pid, mpid]; exact live.pid⟩, stat.trans running⟩

theorem Waited.tracked {f : Child η → Child η} {e : Halted η} (h : Waited w f e w')
    (running : w.dbg.stat = .running) (pid : w.dbg.pid = w.os.pid) : Tracked w' := by
  cases h with
  | stop s c w' dbg os calls =>
    refine .inr ⟨f c, ⟨by rw [os]; rfl, ?_⟩, by rw [dbg]; exact running⟩
    rw [dbg, os]
    exact pid
  | exit code w' dbg os calls => exact .inl (by rw [os])
  | killed s dumped w' dbg os calls => exact .inl (by rw [os])

/-- Behind a wait that did not report a kill, RUNNING means there is a child. -/
theorem Waited.alive {f : Child η → Child η} {e : Halted η} (h : Waited w f e w')
    (report : reportedKill w'.calls = false) (running : w'.dbg.stat = .running) :
    w'.os.proc ≠ none := by
  cases h with
  | stop s c w' dbg os calls =>
    rw [os]
    simp [Machine.put]
  | exit code w' dbg os calls => exact absurd running (stopRecord_idle dbg)
  | killed s dumped w' dbg os calls =>
    rw [calls] at report
    simp [reportedKill, kill_not_exited, kill_not_stopped] at report

theorem Waited.stopped_record {f : Child η → Child η} {s : Signal} {c : Child η}
    (h : Waited w f (.stop s c) w') : w'.dbg = { w.dbg with status := stopStatus s } := by
  cases h with
  | stop s c w' dbg os calls => exact dbg

theorem Conted.waited {c : Child η} (h : Conted T fuel w c w') (pid : w.dbg.pid = w.os.pid) :
    ∃ w₁ e f, w₁.dbg.stat = w.dbg.stat ∧ w₁.dbg.pid = w₁.os.pid ∧ Waited w₁ f e w' := by
  obtain ⟨s, c₁, w₁, e, _, hw₁, _, hw'⟩ := h
  have hd := hw₁.stopped_record
  exact ⟨w₁, e, _, by rw [hd], (hw₁.live pid).pid, hw'⟩

theorem Started.tracked (h : Started T B w w') (gone : w.os.proc = none) : Tracked w' := by
  cases h with
  | failed w' spawn dbg os calls => exact .inl (by rw [os]; exact gone)
  | ended pid fate st w' spawn dead dbg os calls => exact .inl (by rw [os])
  | ready pid regs hidden image ptext base w' spawn text bias dbg os calls =>
    exact .inr ⟨_, ⟨by rw [os]; rfl, by rw [dbg, os]; rfl⟩, by rw [dbg]⟩

theorem Started.alive (h : Started T B w w') (loaded : w.dbg.stat = .loaded)
    (running : w'.dbg.stat = .running) : w'.os.proc ≠ none := by
  obtain ⟨c, live⟩ := h.live running loaded
  exact live.not_gone

theorem poked_tracked {f : Child η → Child η} (h : Tracked w) (hp : poked f w w')
    (stat : w'.dbg.stat = w.dbg.stat) (pid : w'.dbg.pid = w.dbg.pid) : Tracked w' := by
  rcases hp with ⟨gone, os⟩ | ⟨c, live, os⟩
  · exact .inl (by rw [os]; exact gone)
  · rcases h with gone | ⟨c', _, running⟩
    · exact absurd gone live.not_gone
    · refine .inr ⟨f c, ⟨by rw [os]; rfl, ?_⟩, stat.trans running⟩
      rw [pid, os]
      exact live.pid

theorem poked_alive {f : Child η → Child η} (hp : poked f w w') (alive : w.os.proc ≠ none) :
    w'.os.proc ≠ none := by
  rcases hp with ⟨gone, _⟩ | ⟨c, live, os⟩
  · exact absurd gone alive
  · rw [os]
    simp [Machine.put]

/-- The record's child stays the only one. -/
theorem turn_tracked (turn : Turn T fuel B w i w') (h : Tracked w)
    (outside : ∀ move, i = .outside move →
      (move w.os).proc = w.os.proc ∧ (move w.os).pid = w.os.pid) : Tracked w' := by
  cases turn with
  | outside move input effect =>
    obtain ⟨hproc, hpid⟩ := outside move input
    subst effect
    exact h.same rfl rfl hproc hpid
  | calm same =>
    have ho := (calm_eq same).2.1
    exact h.same (calm_stat same) (calm_pid same) (by rw [ho]) (by rw [ho])
  | set c regs live running same =>
    obtain ⟨hd, ho, _⟩ := core_eq same
    refine .inr ⟨{ c with regs := regs }, ⟨by rw [ho]; rfl, ?_⟩, by rw [hd]; exact running⟩
    rw [hd, ho]
    exact live.pid
  | stepped c e live running found step waited => exact waited.tracked running live.pid
  | conted c live running found conted =>
    obtain ⟨w₁, e, f, hs, hp, hw⟩ := conted.waited live.pid
    exact hw.tracked (hs.trans running) hp
  | started loaded started => exact started.tracked (h.gone_of (by simp [loaded]))
  | ran loaded w₁ c started live running free conted =>
    obtain ⟨w₂, e, f, hs, hp, hw⟩ := conted.waited live.pid
    exact hw.tracked (hs.trans running) hp
  | placed target code accepted dbg os saved calls =>
    exact poked_tracked h os (by rw [dbg]) (by rw [dbg])
  | removed b bp found removed dbg os calls =>
    exact poked_tracked h os (by rw [dbg]) (by rw [dbg])
  | loaded idle bp os calls => exact .inl (by rw [os])

theorem Waited.spawns {f : Child η → Child η} {e : Halted η} (h : Waited w f e w') :
    w'.os.spawns = w.os.spawns := by
  cases h with
  | stop s c w' dbg os calls => rw [os]; rfl
  | exit code w' dbg os calls => rw [os]
  | killed s dumped w' dbg os calls => rw [os]

theorem Conted.spawns {c : Child η} (h : Conted T fuel w c w') :
    w'.os.spawns = w.os.spawns := by
  obtain ⟨s, c₁, w₁, e, _, hw₁, _, hw'⟩ := h
  rw [hw'.spawns, hw₁.spawns]

theorem Started.spawns (h : Started T B w w') : w'.os.spawns = w.os.spawns := by
  cases h with
  | failed w' spawn dbg os calls => rw [os]
  | ended pid fate st w' spawn dead dbg os calls => rw [os]
  | ready pid regs hidden image ptext base w' spawn text bias dbg os calls => rw [os]; rfl

theorem poked_spawns {f : Child η → Child η} (hp : poked f w w') :
    w'.os.spawns = w.os.spawns := by
  rcases hp with ⟨_, os⟩ | ⟨c, _, os⟩
  · rw [os]
  · rw [os]
    rfl

/-- What each further `fork` brings is only ever changed from outside. -/
theorem turn_spawns (turn : Turn T fuel B w i w') :
    w'.os.spawns = w.os.spawns ∨ ∃ move, i = .outside move ∧ w'.os = move w.os := by
  cases turn with
  | outside move input effect =>
    subst effect
    exact .inr ⟨move, input, rfl⟩
  | calm same => exact .inl (by rw [(calm_eq same).2.1])
  | set c regs live running same => exact .inl (by rw [(core_eq same).2.1]; rfl)
  | stepped c e live running found step waited => exact .inl waited.spawns
  | conted c live running found conted => exact .inl conted.spawns
  | started loaded started => exact .inl started.spawns
  | ran loaded w₁ c started live running free conted =>
    exact .inl (conted.spawns.trans started.spawns)
  | placed target code accepted dbg os saved calls => exact .inl (poked_spawns os)
  | removed b bp found removed dbg os calls => exact .inl (poked_spawns os)
  | loaded idle bp os calls => exact .inl (by rw [os])

/-- RUNNING goes on meaning that there is a child unless a kill is reported. -/
theorem turn_alive (turn : Turn T fuel B w i w')
    (alive : w.dbg.stat = .running → w.os.proc ≠ none) (unkilled : Unkilled w i w')
    (running : w'.dbg.stat = .running) : w'.os.proc ≠ none := by
  cases turn with
  | outside move input effect =>
    obtain ⟨hproc, _⟩ := unkilled.outside move input
    subst effect
    rw [show ({ w with os := move w.os } : World (Machine η)).os.proc = w.os.proc from hproc]
    exact alive running
  | calm same =>
    rw [(calm_eq same).2.1]
    exact alive ((calm_stat same).symm.trans running)
  | set c regs live _ same =>
    rw [(core_eq same).2.1]
    simp [World.put, Machine.put]
  | stepped c e live _ found step waited => exact waited.alive unkilled.report running
  | conted c live _ found conted =>
    obtain ⟨w₁, e, f, _, _, hw⟩ := conted.waited live.pid
    exact hw.alive unkilled.report running
  | started loaded started => exact started.alive loaded running
  | ran loaded w₁ c started live _ free conted =>
    obtain ⟨w₂, e, f, _, _, hw⟩ := conted.waited live.pid
    exact hw.alive unkilled.report running
  | placed target code accepted dbg os saved calls =>
    rw [dbg] at running
    exact poked_alive os (alive running)
  | removed b bp found removed dbg os calls =>
    rw [dbg] at running
    exact poked_alive os (alive running)
  | loaded idle bp os calls => exact absurd running idle

/-- The invariant of a session whose children no signal ends. -/
structure LifeInv (w : World (Machine η)) : Prop where
  tracked : Tracked w
  alive : w.dbg.stat = .running → w.os.proc ≠ none

theorem reached_life {m : Machine η} (none : m.proc = none)
    (h : Reached (handle (machineHost T fuel B)) Unkilled (World.init m) w) : LifeInv w := by
  refine h.invariant (I := LifeInv) ⟨.inl none, fun hr => by cases hr⟩ ?_
  intro w i w' _ inv unkilled ran
  have turn := handle_turn inv.tracked ran
  exact ⟨turn_tracked turn inv.tracked unkilled.outside, turn_alive turn inv.alive unkilled⟩

theorem reached_spawns {m : Machine η} (none : m.proc = none)
    (h : Reached (handle (machineHost T fuel B)) (fun _ i _ => typed i = true) (World.init m) w) :
    w.os.spawns = m.spawns := by
  have hinv : Tracked w ∧ w.os.spawns = m.spawns := by
    refine h.invariant (I := fun w => Tracked w ∧ w.os.spawns = m.spawns) ⟨.inl none, rfl⟩ ?_
    intro w i w' _ inv htyped ran
    have outside : ∀ move, i ≠ .outside move := by
      intro move hi
      subst hi
      cases htyped
    have turn := handle_turn inv.1 ran
    refine ⟨turn_tracked turn inv.1 fun move hi => absurd hi (outside move), ?_⟩
    rcases turn_spawns turn with same | ⟨move, hi, _⟩
    · exact same.trans inv.2
    · exact absurd hi (outside move)
  exact hinv.2

theorem LifeInv.running_iff (h : LifeInv w) :
    w.dbg.stat = .running ↔ Alive w.os w.dbg.pid := by
  constructor
  · intro running
    rcases h.tracked with gone | ⟨c, live, _⟩
    · exact absurd gone (h.alive running)
    · exact ⟨live.pid, .stopped c, live.proc, by simp⟩
  · intro alive
    obtain ⟨_, p, hp, _⟩ := alive
    rcases h.tracked with gone | ⟨c, _, running⟩
    · rw [gone] at hp
      cases hp
    · exact running

end

/-- In every run in which no signal ends the child, `stat` is RUNNING exactly when `pid`
names a child that is alive and unreaped. -/
theorem running_iff_alive {η : Type} (T : Isa η) (fuel : Nat) (B : Host (Machine η))
    (m : Machine η) (childless : m.proc = none) (w : World (Machine η))
    (reached : Reached (handle (machineHost T fuel B)) Unkilled (World.init m) w) :
    w.dbg.stat = .running ↔ Alive w.os w.dbg.pid :=
  (reached_life childless reached).running_iff

theorem running_iff_alive_demo : ∃ w : World (Machine Demo.Hidden),
    w.dbg.stat = .running ∧ Alive w.os w.dbg.pid := by
  obtain ⟨w, hw, hs⟩ := exists_reached (handle (Demo.host Demo.static))
    (fun _ i w' => typed i && !reportedKill w'.calls)
    (World.init (Demo.machine (Demo.program Demo.nops)))
    [.line ["load", "demo"], .line ["start"], .line ["si"]]
    (fun w => w.dbg.stat = .running) (by decide +kernel)
  have running := of_decide_eq_true hs
  refine ⟨w, running, (running_iff_alive _ _ _ _ rfl w (hw.mono ?_)).mp running⟩
  intro w i w' hok
  obtain ⟨ht, hk⟩ := Bool.and_eq_true_iff.mp hok
  cases i with
  | outside move => cases ht
  | line argv => exact ⟨by simp, by simpa using hk⟩
  | eof => exact ⟨by simp, by simpa using hk⟩

/-- A `SIGKILL` meets the child during a step: `cmd` prints that it was signaled, and
the session goes on as if it were there. -/
theorem killed_child_running : ∃ w : World (Machine Demo.Hidden),
    Reached (handle (Demo.host Demo.static)) (fun _ _ _ => True)
      (World.init (Demo.machine (Demo.program Demo.nops (some 0)))) w ∧
    w.dbg.stat = .running ∧ ¬Alive w.os w.dbg.pid := by
  obtain ⟨w, hw, hs⟩ := exists_run (handle (Demo.host Demo.static))
    (World.init (Demo.machine (Demo.program Demo.nops (some 0))))
    [.line ["load", "demo"], .line ["start"], .line ["si"]]
    (fun w => w.dbg.stat = .running && w.os.proc.isNone) (by decide +kernel)
  obtain ⟨running, gone⟩ := Bool.and_eq_true_iff.mp hs
  refine ⟨w, hw, of_decide_eq_true running, ?_⟩
  intro alive
  obtain ⟨_, p, hp, _⟩ := alive
  rw [hp] at gone
  cases gone

end UnixProgramming.Sdb.Proofs
