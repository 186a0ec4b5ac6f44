import UnixProgramming.Sdb.Machine
import UnixProgramming.Sdb.Proofs.Edits

namespace UnixProgramming.Sdb.Proofs
open Lib

/-- `pid` names a child that was forked and whose end no wait has reported since. -/
def unreaped : List Call → Int → Bool
  | [], _ => false
  | .fork (some p) :: c, pid => p == pid || unreaped c pid
  | .wait _ p (some st) :: c, pid => unreaped c pid && (p != pid || WIFSTOPPED st)
  | _ :: c, pid => unreaped c pid

/-- Every kill named an unreaped child when it was sent. -/
def ownKills : List Call → Bool
  | [] => true
  | .kill pid :: c => unreaped c pid && ownKills c
  | _ :: c => ownKills c

/-- A wait in `cmd` has reported an exit. -/
def reportedExit : List Call → Bool
  | [] => false
  | .wait .cmd _ (some st) :: c => WIFEXITED st || reportedExit c
  | _ :: c => reportedExit c

/-- Since the last `fork`, a wait in `cmd` has reported death by a signal. -/
def reportedSignal : List Call → Bool
  | [] => false
  | .fork _ :: _ => false
  | .wait .cmd _ (some st) :: c => (!WIFEXITED st && !WIFSTOPPED st) || reportedSignal c
  | _ :: c => reportedSignal c

/-- As long as no exit was reported, the kills were right and a running child that no
signal has ended is unreaped. -/
structure KillInv (s : Snap) : Prop where
  own : reportedExit s.2 = false → ownKills s.2 = true
  alive : reportedExit s.2 = false → s.1.stat = .running → reportedSignal s.2 = false →
    unreaped s.2 s.1.pid = true

theorem KillInv.idle {d : Debugger} {c : List Call}
    (own : reportedExit c = false → ownKills c = true) (hs : d.stat ≠ .running) : KillInv (d, c) :=
  ⟨own, fun _ hr => absurd hr hs⟩

/-- Behind a reported exit nothing is promised. -/
theorem KillInv.exited {d : Debugger} {c : List Call} (h : reportedExit c = true) :
    KillInv (d, c) where
  own := by simp [h]
  alive := by simp [h]

theorem KillInv.waited {d : Debugger} {c : List Call} (h : KillInv (d, c))
    (res : Option (BitVec 32)) :
    KillInv ({ d with status := res.getD d.status }, .wait .cmd d.pid res :: c) := by
  cases res with
  | none => exact ⟨h.own, h.alive⟩
  | some st =>
    constructor
    · intro hx
      simp only [reportedExit, Bool.or_eq_false_iff] at hx
      exact h.own hx.2
    · intro hx hr hs
      simp only [reportedExit, reportedSignal, Bool.or_eq_false_iff] at hx hs
      obtain ⟨hx, hxc⟩ := hx
      obtain ⟨hst, hsc⟩ := hs
      have hu := h.alive hxc hr hsc
      have hstop : WIFSTOPPED st = true := by simpa [hx] using hst
      dsimp only at hu
      simp [unreaped, hu, hstop]

theorem move_kills {s s' : Snap} (hm : Move s s') (h : KillInv s) : KillInv s' := by
  cases hm with
  | waited d c res => exact h.waited res
  | killed d c st running exited => exact .exited (by simp [reportedExit, exited])
  | reaped d c st res exited =>
    cases res <;> exact .exited (by simp [reportedExit, exited])
  | ended d d' c stop => exact .idle h.own (stopRecord_idle stop)
  | failed d c loaded => exact .idle h.own (by simp [loaded])
  | forked d c pid loaded => exact .idle h.own (by simp [loaded])
  | awaited d c pid res loaded child =>
    cases res with
    | none => exact .idle h.own (by simp [loaded])
    | some st => exact .idle h.own (by simp [loaded])
  | started d c pid st ptext base bp loaded child stopped text bias moved =>
    refine ⟨h.own, ?_⟩
    intro hx hr hs
    simp [unreaped, child, stopped]
  | dumped d c next running => exact ⟨h.own, h.alive⟩
  | swept d c next loaded => exact ⟨h.own, h.alive⟩

theorem moves_kills {s s' : Snap} (hm : Moves s s') (h : KillInv s) : KillInv s' := by
  induction hm with
  | refl => exact h
  | tail _ step ih => exact move_kills step ih

/-- What `stop_debugger` sends goes to the child, unless a signal has already ended it. -/
theorem stopCalls_kills {d : Debugger} {c c' : List Call} (hc : StopCalls d c c')
    (h : KillInv (d, c)) (alive : d.stat = .running → reportedSignal c = false) :
    reportedExit c' = false → ownKills c' = true := by
  intro hx
  cases hc with
  | idle => exact h.own hx
  | killed hr =>
    have hown : ownKills c = true := h.own hx
    have hu : unreaped c d.pid = true := h.alive hx hr (alive hr)
    simp [ownKills, hown, hu]
  | reaped hr res =>
    have hx' : reportedExit c = false := by cases res <;> exact hx
    have hown : ownKills c = true := h.own hx'
    have hu : unreaped c d.pid = true := h.alive hx' hr (alive hr)
    cases res <;> simp [ownKills, hown, hu]

section
variable {σ : Type} {H : Host σ}

/-- The inputs that end the program being run: `load` with a file, `exit` and the end of
the input. -/
def stops (H : Host σ) : Input σ → Bool
  | .eof => true
  | .outside _ => false
  | .line [] => false
  | .line (word :: argv) =>
    match lookup H.list word with
    | some .load => !argv.isEmpty
    | some .exit => true
    | _ => false

/-- In this transition no wait of `cmd` reports an exit, and no program is stopped whose
child a signal has ended. -/
def SparesDead (H : Host σ) (w : World σ) (i : Input σ) (w' : World σ) : Prop :=
  reportedExit w'.calls = false ∧
    (stops H i = true → w.dbg.stat = .running → reportedSignal w.calls = false)

instance (w : World σ) (i : Input σ) (w' : World σ) : Decidable (SparesDead H w i w') :=
  inferInstanceAs (Decidable (_ ∧ (_ → _ → _)))

theorem round_kills {i : Input σ} {w w' : World σ} (hr : Round H w i w')
    (h : KillInv (snap w)) (spares : SparesDead H w i w') : KillInv (snap w') := by
  obtain ⟨_, hs⟩ := spares
  cases hr with
  | outside move w' same => exact same ▸ h
  | unknown word argv w' found same => exact same ▸ h
  | quiet word argv w' b found still moves => exact moves_kills moves h
  | bare word w' found same => exact same ▸ h
  | load word name argv w' found calls result =>
    have hstop : stops H (.line (word :: name :: argv)) = true := by simp [stops, found]
    exact .idle (stopCalls_kills calls h (hs hstop)) (result.idle (cleared_init w.dbg))
  | «break» word argv w' found calls broke =>
    obtain ⟨bpi, bp, he⟩ := broke.edits
    unfold snap
    rw [he, calls]
    exact ⟨h.own, h.alive⟩
  | delete word argv w' found calls deleted =>
    obtain ⟨bpi, bp, he⟩ := deleted.edits
    unfold snap
    rw [he, calls]
    exact ⟨h.own, h.alive⟩

theorem reached_kills {os : σ} {w : World σ}
    (h : Reached (handle H) (SparesDead H) (World.init os) w) :
    KillInv (snap w) ∧ reportedExit w.calls = false := by
  refine h.invariant (I := fun w => KillInv (snap w) ∧ reportedExit w.calls = false) ?_ ?_
  · exact ⟨.idle (fun _ => rfl) (by simp [World.init]), rfl⟩
  · intro w i w' _ inv spares ran
    exact ⟨round_kills (handle_round H ran) inv.1 spares, spares.1⟩

/-- The step that ends the debugger keeps to the same rule. -/
theorem abort_kills {i : Input σ} {w w' : World σ} {e : Halt} (ha : Abort H w i e w')
    (h : KillInv (snap w)) (spares : SparesDead H w i w') : ownKills w'.calls = true := by
  obtain ⟨hx, hs⟩ := spares
  cases ha with
  | quiet word argv e w' b found still moves => exact (moves_kills moves h).own hx
  | load word name argv e w' found fault calls =>
    exact stopCalls_kills calls h (hs (by simp [stops, found])) hx
  | exit word argv e w' found calls =>
    exact stopCalls_kills calls h (hs (by simp [stops, found])) hx
  | eof e w' calls => exact stopCalls_kills calls h (hs rfl) hx
  | crash argv w' calls =>
    rw [calls] at hx ⊢
    exact h.own hx

end

/-- On every host, in a run in which no wait of `cmd` reports an exit and no program is
stopped after a signal has ended it, each kill names an unreaped child. -/
theorem only_own_child_killed {σ : Type} (H : Host σ) (os : σ) (w : World σ)
    (reached : Reached (handle H) (SparesDead H) (World.init os) w) :
    ownKills w.calls = true ∧
      ∀ i e w', handle H i w = .error e w' → SparesDead H w i w' → ownKills w'.calls = true := by
  obtain ⟨inv, hx⟩ := reached_kills reached
  exact ⟨inv.own hx, fun i e w' ran spares => abort_kills (handle_abort H ran) inv spares⟩

/-- A program is started and stepped, and `load` then kills it. -/
theorem only_own_child_killed_demo : ∃ w : World (Machine Demo.Hidden),
    w.calls.length = 5 ∧ ownKills w.calls = true := by
  obtain ⟨w, hw, hl⟩ := exists_reached (handle (Demo.host Demo.static))
    (fun w i w' => decide (SparesDead (Demo.host Demo.static) w i w'))
    (World.init (Demo.machine (Demo.program Demo.nops)))
    [.line ["load", "demo"], .line ["start"], .line ["si"], .line ["load", "demo"]]
    (fun w => w.calls.length = 5) (by decide +kernel)
  have hr := hw.mono (fun _ _ _ h => of_decide_eq_true h)
  exact ⟨w, of_decide_eq_true hl, (only_own_child_killed _ _ w hr).1⟩

/-- The program runs to its end, and `stop_debugger` kills the pid that `cmd` has just reaped. -/
theorem reaped_child_killed : ∃ w : World (Machine Demo.Hidden),
    Reached (handle (Demo.host Demo.static)) (fun _ _ _ => True)
      (World.init (Demo.machine (Demo.program Demo.exits))) w ∧ ownKills w.calls = false := by
  obtain ⟨w, hw, hk⟩ := exists_run (handle (Demo.host Demo.static))
    (World.init (Demo.machine (Demo.program Demo.exits)))
    [.line ["load", "demo"], .line ["start"], .line ["si"], .line ["si"]]
    (fun w => !ownKills w.calls) (by decide +kernel)
  exact ⟨w, hw, by simpa using hk⟩

end UnixProgramming.Sdb.Proofs
