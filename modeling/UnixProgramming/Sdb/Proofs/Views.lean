import UnixProgramming.Sdb.Proofs.Programs
import UnixProgramming.Sdb.Proofs.Session

namespace UnixProgramming.Sdb.Proofs
open Lib

section Views
variable {η : Type} {T : Isa η} {fuel : Nat} {B : Host (Machine η)} {w w' w₁ : World (Machine η)}
  {i : Input (Machine η)} {c : Child η} {e : Halted η}

/-- The session of the user that the debugger's world stands for. -/
def view (w : World (Machine η)) : View η where
  stat := w.dbg.stat
  marks := w.dbg.bp.map fun b => b.addr - w.dbg.base
  base := w.dbg.base
  prog := (w.os.child w.dbg.pid).map Child.prog

/-- The program that `start` finds when it has made a process, and its base. -/
def found (T : Isa η) (B : Host (Machine η)) (w : World (Machine η)) : Option (Word × Prog η) :=
  match w.os.spawns w.os.forks, w.dbg.ptextHdr with
  | some (pid, .ready regs hidden image), some ptext =>
    some (baseOf ptext (beginOf B (w.os.spawned pid (fresh regs hidden image)) (T.maps hidden)),
      ⟨regs, hidden, image⟩)
  | _, _ => none

/-- The register `set` writes and its new value. -/
def asked (d : Debugger) (argv : List String) : Option (Reg × Word) :=
  match argv[1]?, argv[2]? with
  | some name, some text =>
    if d.stat = .running then (findReg name).map fun r => (r, strtoll text) else none
  | _, _ => none

/-- What a line of input asks for. -/
def act (T : Isa η) (fuel : Nat) (B : Host (Machine η)) (w : World (Machine η))
    (i : Input (Machine η)) : Act η :=
  match command (machineHost T fuel B) i with
  | some .load => if (arguments i).length < 2 then .look else .load
  | some .break => (accepted w.dbg (arguments i)).elim .look .place
  | some .delete => (removed w.dbg (arguments i)).elim .look fun r => .remove r.1.addr
  | some .start => if w.dbg.stat = .loaded then .start (found T B w) else .look
  | some .run =>
    match w.dbg.stat with
    | .init => .look
    | .loaded => .run (found T B w)
    | .running => .resume
  | some .si => if w.dbg.stat = .running then .si else .look
  | some .cont => if w.dbg.stat = .running then .cont else .look
  | some .set => (asked w.dbg (arguments i)).elim .look fun r => .set r.1 r.2
  | _ => .look

theorem view_stops (w : World (Machine η)) : (view w).stops = w.dbg.bp.map (·.addr) := by
  simp [View.stops, view, Function.comp_def]

theorem Live.view (h : Live w c) : (view w).prog = some c.prog := by
  simp [Proofs.view, h.child]

/-- The world `w'` is what the user means by `a`, and the child is still the program with
the breakpoints over it. -/
structure Meant (T : Isa η) (a : Act η) (w w' : World (Machine η)) : Prop where
  next : ∃ code, View.Next T a (view w) code (view w') ∧
    ∀ b, code = some b → w'.dbg.status = exitStatus b
  covered : ∀ c, Live w' c → Instrumented w'.dbg c.image c

/-- What holds between two commands. -/
structure Sound (T : Isa η) (w : World (Machine η)) : Prop where
  tracked : Tracked w
  ready : Ready w.dbg
  clean : Clean w.dbg
  covered : ∀ c, Live w c → Instrumented w.dbg c.image c
  tame : (view w).Tame T

theorem Sound.prog (h : Sound T w) (live : Live w c) : c.prog.Tame T (w.dbg.bp.map (·.addr)) := by
  rw [← view_stops]
  exact h.tame.prog _ live.view

theorem Sound.base (h : Sound T w) (idle : w.dbg.stat ≠ .running) : w.dbg.base = 0 := by
  cases hs : w.dbg.stat with
  | init => exact (h.ready.init hs).base
  | loaded => exact (h.clean hs).1
  | running => exact absurd hs idle

theorem view_gone (gone : w.os.proc = none) : (view w).prog = none := by
  simp [view, Machine.child, gone]

/-- A world with the same entries that the session is read from. -/
theorem view_congr (stat : w'.dbg.stat = w.dbg.stat) (bp : w'.dbg.bp = w.dbg.bp)
    (base : w'.dbg.base = w.dbg.base) (pid : w'.dbg.pid = w.dbg.pid) (os : w'.os = w.os) :
    view w' = view w := by
  unfold view
  rw [stat, bp, base, pid, os]

/-- Without a child before and after, the record decides. -/
theorem view_childless (stat : w'.dbg.stat = w.dbg.stat) (bp : w'.dbg.bp = w.dbg.bp)
    (base : w'.dbg.base = w.dbg.base) (gone : w.os.proc = none) (gone' : w'.os.proc = none) :
    view w' = view w := by
  apply View.ext
  · exact stat
  · unfold view
    rw [bp, base]
  · exact base
  · rw [view_gone gone, view_gone gone']

theorem view_calm (h : calm w' = calm w) : view w' = view w := by
  obtain ⟨hd, ho, _⟩ := calm_eq h
  have hbp := congrArg Debugger.bp hd
  have hbase := congrArg Debugger.base hd
  exact view_congr (calm_stat h) hbp hbase (calm_pid h) ho

theorem calm_meant (h : Sound T w) (same : calm w' = calm w) : Meant T .look w w' where
  next := by
    refine ⟨none, ?_, by simp⟩
    rw [view_calm same]
    exact .look _
  covered := by
    intro c live
    obtain ⟨hd, ho, _⟩ := calm_eq same
    have hbp := congrArg Debugger.bp hd
    dsimp only at hbp
    have hc := h.covered c ⟨ho ▸ live.proc, by rw [← calm_pid same, ← ho]; exact live.pid⟩
    refine ⟨?_, ?_, ?_⟩
    · rw [hbp]
      exact hc.mem
    · rw [hbp]
      exact hc.saved
    · rw [hbp]
      exact hc.apart

/-- The world after a wait that saw the child stop. -/
theorem Waited.view_stop {f : Child η → Child η} {s : Signal} (h : Waited w f (.stop s c) w')
    (pid : w.dbg.pid = w.os.pid) : view w' = { view w with prog := some (f c).prog } := by
  have hprog := (h.live pid).view
  have hd := h.stopped_record
  apply View.ext
  · show w'.dbg.stat = w.dbg.stat
    rw [hd]
  · unfold Proofs.view
    rw [hd]
  · show w'.dbg.base = w.dbg.base
    rw [hd]
  · exact hprog

/-- The record `stop_debugger` leaves has the breakpoints back at their places in the file. -/
theorem stopRecord_marks {d d' : Debugger} (h : stopRecord d = some d') (running : d.stat = .running)
    (biased : Biased d) : d'.stat = .loaded ∧ d'.base = 0 ∧ d'.status = d.status ∧
      d'.bp.map (fun b => b.addr - d'.base) = d.bp.map fun b => b.addr - d.base := by
  unfold stopRecord at h
  rw [running] at h
  obtain ⟨ptext, ht, hd⟩ := Option.map_eq_some_iff.mp h
  subst hd
  refine ⟨rfl, rfl, ?_, ?_⟩
  · split <;> rfl
  · split
    · simp [Debugger.unbase, Debugger.stopped, Function.comp_def]
    · rename_i hv
      rcases biased with hb | ⟨ptext', ht', hv'⟩
      · simp [Debugger.stopped, hb]
      · rw [ht] at ht'
        cases ht'
        exact absurd hv' hv

theorem Waited.view_exit {f : Child η → Child η} {code : Byte} (h : Waited w f (.exit code) w')
    (running : w.dbg.stat = .running) (biased : Biased w.dbg) :
    view w' = (view w).ended ∧ w'.dbg.status = exitStatus code := by
  cases h with
  | exit code w' dbg os calls =>
    obtain ⟨hstat, hbase, hstatus, hmarks⟩ := stopRecord_marks dbg running biased
    refine ⟨?_, hstatus⟩
    have hprog : (view w').prog = none := view_gone (by rw [os])
    apply View.ext
    · exact hstat
    · exact hmarks
    · exact hbase
    · exact hprog

/-- The child that a wait leaves masks a program whose bytes at the breakpoints are those
the words were saved from. -/
theorem Waited.covered {f : Child η → Child η} {s : Signal} {p q : Prog η}
    (h : Waited w f (.stop s c) w') (pid : w.dbg.pid = w.os.pid)
    (masks : Masks (w.dbg.bp.map (·.addr)) (f c) q)
    (saved : ∀ b ∈ w.dbg.bp, b.code = load 8 p.mem b.addr)
    (same : ∀ b ∈ w.dbg.bp, load 8 q.mem b.addr = load 8 p.mem b.addr)
    (apart : (w.dbg.bp.map (·.addr)).Pairwise Apart) :
    ∀ c', Live w' c' → Instrumented w'.dbg c'.image c' := by
  intro c' live
  have hbp : w'.dbg.bp = w.dbg.bp := by rw [h.stopped_record]
  obtain rfl := (h.live pid).unique live
  refine Masks.instrumented (p := q) ?_ ?_ ?_
  · rw [hbp]
    exact masks
  · rw [hbp]
    intro b hb
    rw [saved b hb, same b hb]
  · rw [hbp]
    exact apart

theorem Sound.apart (h : Sound T w) : (w.dbg.bp.map (·.addr)).Pairwise Apart := by
  rw [← view_stops]
  exact h.tame.apart

theorem Sound.si (h : Sound T w) (live : Live w c) (running : w.dbg.stat = .running)
    (step : (lifted w.dbg c).go T fuel .singlestep = some e)
    (waited : Waited w (fun c' => rearmed w.dbg (c.regs .rip) (rewind w.dbg c')) e w') :
    Meant T .si w w' := by
  have inst := h.covered c live
  have tame := h.prog live
  rcases tame_goes tame with ⟨p', hnext⟩ | ⟨code, hend⟩
  · obtain ⟨c₁, hgo, hm⟩ := inst.next fuel tame hnext
    rw [hgo] at step
    cases step
    constructor
    · refine ⟨none, ?_, by simp⟩
      rw [waited.view_stop live.pid, hm.prog]
      exact .si _ _ _ live.view hnext
    · refine waited.covered (p := c.prog) live.pid hm inst.saved ?_ h.apart
      exact fun b hb => load_next tame hnext (List.mem_map.mpr ⟨b, hb, rfl⟩)
  · rw [inst.exits fuel tame hend] at step
    cases step
    obtain ⟨hv, hs⟩ := waited.view_exit running (h.ready.biased running)
    constructor
    · refine ⟨some code, ?_, ?_⟩
      · rw [hv]
        exact .ended _ _ _ live.view hend
      · intro b hb
        cases hb
        exact hs
    · exact fun c' live' => absurd (waited.gone (by simp)) live'.not_gone

theorem Sound.cont (h : Sound T w) (live : Live w c) (running : w.dbg.stat = .running)
    (conted : Conted T fuel w c w') : Meant T .cont w w' := by
  have inst := h.covered c live
  have tame := h.prog live
  obtain ⟨s, c₁, w₁, e, hgo, hw₁, hgo', hw'⟩ := conted
  rcases tame_goes tame with ⟨p', hnext⟩ | ⟨code, hend⟩
  · obtain ⟨c₂, hstep, hm⟩ := inst.next fuel tame hnext
    rw [hgo] at hstep
    cases hstep
    obtain ⟨r, goes, halts⟩ := hm.run (tame_next tame hnext) hgo'
    have hd := hw₁.stopped_record
    have hview := hw₁.view_stop live.pid
    have hmeans : View.Next T .cont (view w) (reported r) ((view w).came r) := by
      refine .cont _ _ _ _ live.view hnext ?_
      rw [view_stops]
      exact goes
    cases r with
    | inl q =>
      obtain ⟨c', hq, he⟩ := halts
      subst he
      have hback := hq.back (until_on goes q rfl)
      have hpid := (hw₁.live live.pid).pid
      constructor
      · refine ⟨none, ?_, by simp⟩
        have hv := hw'.view_stop hpid
        rw [hback, hq.prog, hview] at hv
        rw [hv]
        exact hmeans
      · have hbp : w₁.dbg.bp = w.dbg.bp := by rw [hd]
        refine hw'.covered (p := c.prog) (q := q) hpid ?_ ?_ ?_ ?_
        · rw [hbp, hback]
          exact hq
        · rw [hbp]
          exact inst.saved
        · rw [hbp]
          intro b hb
          have ha : b.addr ∈ w.dbg.bp.map (·.addr) := List.mem_map.mpr ⟨b, hb, rfl⟩
          rw [load_until goes (tame_next tame hnext) ha q rfl, load_next tame hnext ha]
        · rw [hbp]
          exact h.apart
    | inr code =>
      cases halts
      have hr₁ : w₁.dbg.stat = .running := by rw [hd]; exact running
      have hb₁ : Biased w₁.dbg := by
        have hs := h.ready.called w.dbg.pid (stopStatus SIGTRAP)
        rw [hd]
        exact hs.biased running
      obtain ⟨hv, hs⟩ := hw'.view_exit hr₁ hb₁
      constructor
      · refine ⟨some code, ?_, ?_⟩
        · rw [hv, hview]
          exact hmeans
        · intro b hb
          cases hb
          exact hs
      · exact fun c' live' => absurd (hw'.gone (by simp)) live'.not_gone
  · rw [inst.exits fuel tame hend] at hgo
    cases hgo

theorem load_overlay {m : Memory 64} {s : List Word} {v : Byte} {a : Word}
    (far : ∀ x ∈ s, 8 ≤ offset a x) : load 8 (overlay m s v) a = load 8 m a := by
  apply load_congr
  intro i hi
  apply overlay_not_mem
  intro hm
  have ho := far _ hm
  rw [offset_add _ (by omega)] at ho
  omega

theorem apart_nodup {s : List Word} (h : s.Pairwise Apart) : s.Nodup := by
  refine h.imp ?_
  intro a b hab he
  have hlt := hab.1
  rw [he, offset_self] at hlt
  omega

theorem Sound.placed (h : Sound T w) (tame : (view w').Tame T) {target code : Word}
    (dbg : w'.dbg = { w.dbg with bpi := w.dbg.bpi + 1, bp := w.dbg.bp ++ [⟨w.dbg.bpi, target, code⟩] })
    (os : poked (fun c => { c with mem := arm c.mem target }) w w')
    (saved : ∀ c, Live w c → code = load 8 c.mem target) : Meant T (.place target) w w' := by
  have hprog : (view w').prog = (view w).prog := by
    rcases os with ⟨gone, os⟩ | ⟨c, live, os⟩
    · rw [view_gone gone, view_gone (by rw [os]; exact gone)]
    · have live' : Live w' { c with mem := arm c.mem target } := by
        refine ⟨by rw [os]; rfl, ?_⟩
        rw [dbg, os]
        exact live.pid
      rw [live.view, live'.view]
      rfl
  constructor
  · refine ⟨none, ?_, by simp⟩
    have hv : view w' = { view w with marks := (view w).marks ++ [target - (view w).base] } := by
      apply View.ext
      · show w'.dbg.stat = w.dbg.stat
        rw [dbg]
      · unfold view
        rw [dbg]
        simp
      · show w'.dbg.base = w.dbg.base
        rw [dbg]
      · exact hprog
    rw [hv]
    exact .place _ _
  · intro c' live'
    obtain ⟨c, live, hc⟩ := poked_child os live'
    subst hc
    have inst := h.covered c live
    have apart : (w'.dbg.bp.map (·.addr)).Pairwise Apart := by
      rw [← view_stops]
      exact tame.apart
    have hbp : w'.dbg.bp = w.dbg.bp ++ [⟨w.dbg.bpi, target, code⟩] := by rw [dbg]
    rw [hbp, List.map_append] at apart
    obtain ⟨_, _, far⟩ := List.pairwise_append.mp apart
    refine ⟨?_, ?_, ?_⟩
    · rw [hbp, arm_eq, inst.mem, overlay_overlay, List.map_append]
      rfl
    · intro b hb
      rw [hbp] at hb
      rcases List.mem_append.mp hb with hb | hb
      · exact inst.saved b hb
      · rw [List.mem_singleton.mp hb]
        dsimp only
        rw [saved c live, inst.mem]
        apply load_overlay
        exact fun x hx => (far x hx target (by simp)).2
    · rw [hbp, List.map_append]
      exact apart

theorem Sound.removed (h : Sound T w) {argv : List String} {b : BreakPt} {bp : List BreakPt}
    (removed : removed w.dbg argv = some (b, bp)) (dbg : w'.dbg = { w.dbg with bp := bp })
    (os : poked (fun c => { c with mem := store 8 c.mem b.addr b.code }) w w') :
    Meant T (.remove b.addr) w w' := by
  obtain ⟨pre, post, hsplit, hrest⟩ := removed_split removed
  have hprog : (view w').prog = (view w).prog := by
    rcases os with ⟨gone, os⟩ | ⟨c, live, os⟩
    · rw [view_gone gone, view_gone (by rw [os]; exact gone)]
    · have live' : Live w' { c with mem := store 8 c.mem b.addr b.code } := by
        refine ⟨by rw [os]; rfl, ?_⟩
        rw [dbg, os]
        exact live.pid
      rw [live.view, live'.view]
      rfl
  have apart := h.apart
  have distinct := apart_nodup apart
  rw [hsplit] at apart distinct
  constructor
  · refine ⟨none, ?_, by simp⟩
    have hv : view w' = { view w with marks := (view w).marks.erase (b.addr - (view w).base) } := by
      apply View.ext
      · show w'.dbg.stat = w.dbg.stat
        rw [dbg]
      · show w'.dbg.bp.map (fun b => b.addr - w'.dbg.base) =
          (w.dbg.bp.map fun b => b.addr - w.dbg.base).erase (b.addr - w.dbg.base)
        have hnot : b.addr - w.dbg.base ∉ pre.map fun b => b.addr - w.dbg.base := by
          intro hm
          obtain ⟨b', hb', he⟩ := List.mem_map.mp hm
          have ha : b'.addr = b.addr := by
            have hadd := congrArg (· + w.dbg.base) he
            simpa using hadd
          rw [List.map_append, List.map_cons] at distinct
          exact (List.nodup_middle.mp distinct).notMem
            (List.mem_append_left _ (List.mem_map.mpr ⟨b', hb', ha⟩))
        rw [dbg]
        dsimp only
        rw [hsplit, hrest, List.map_append, List.map_append, List.erase_append_right _ hnot,
          List.map_cons, List.erase_cons_head]
      · show w'.dbg.base = w.dbg.base
        rw [dbg]
      · exact hprog
    rw [hv]
    exact .remove _ _
  · intro c' live'
    obtain ⟨c, live, hc⟩ := poked_child os live'
    subst hc
    have inst := h.covered c live
    have hbp : w'.dbg.bp = pre ++ post := by rw [dbg, ← hrest]
    have hb : b ∈ w.dbg.bp := by
      rw [hsplit]
      exact List.mem_append_right pre List.mem_cons_self
    have armed := inst.armed
    rw [hsplit] at armed
    refine ⟨?_, ?_, ?_⟩
    · rw [hbp]
      exact (armed.removed distinct (inst.intact hb)).mem
    · intro b' hb'
      rw [hbp] at hb'
      apply inst.saved
      rw [hsplit]
      exact ((List.sublist_cons_self b post).append_left pre).subset hb'
    · rw [hbp]
      exact apart.sublist (((List.sublist_cons_self b post).append_left pre).map _)

end Views

end UnixProgramming.Sdb.Proofs
