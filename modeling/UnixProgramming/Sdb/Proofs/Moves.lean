import Mathlib.Logic.Relation
import UnixProgramming.Sdb.Commands

namespace UnixProgramming.Sdb.Proofs
open Lib

/-- The part of the world the debugger decides: its record and its process control. -/
abbrev Snap := Debugger × List Call

def snap (w : World σ) : Snap := (w.dbg, w.calls)

theorem dbg_eq {w w' : World σ} (h : snap w' = snap w) : w'.dbg = w.dbg :=
  congrArg Prod.fst h

theorem calls_eq {w w' : World σ} (h : snap w' = snap w) : w'.calls = w.calls :=
  congrArg Prod.snd h

/-- The record after `stop_debugger`, unless it reads through a bad `ptext`. -/
def stopRecord (d : Debugger) : Option Debugger :=
  match d.stat with
  | .init => some d
  | .loaded => some d.stopped
  | .running => d.ptextHdr.map fun ptext =>
      (if ptext.vaddr = 0 then d.unbase else d).stopped

theorem stopRecord_idle {d d' : Debugger} (h : stopRecord d = some d') : d'.stat ≠ .running := by
  unfold stopRecord at h
  cases hs : d.stat with
  | init => rw [hs] at h; cases h; simp [hs]
  | loaded => rw [hs] at h; cases h; simp [Debugger.stopped]
  | running =>
    rw [hs] at h
    obtain ⟨ptext, _, he⟩ := Option.map_eq_some_iff.mp h
    subst he
    simp [Debugger.stopped]

theorem stopRecord_ids {d d' : Debugger} (h : stopRecord d = some d') :
    d'.bp.map (·.id) = d.bp.map (·.id) := by
  unfold stopRecord at h
  cases hs : d.stat with
  | init => rw [hs] at h; cases h; rfl
  | loaded => rw [hs] at h; cases h; rfl
  | running =>
    rw [hs] at h
    obtain ⟨ptext, _, he⟩ := Option.map_eq_some_iff.mp h
    subst he
    split
    · simp [Debugger.stopped, Debugger.unbase, Function.comp_def]
    · rfl

/-- Process control of one `stop_debugger`. -/
inductive StopCalls (d : Debugger) (c : List Call) : List Call → Prop
  | idle (h : d.stat ≠ .running) : StopCalls d c c
  | killed (h : d.stat = .running) : StopCalls d c (.kill d.pid :: c)
  | reaped (h : d.stat = .running) (res : Option (BitVec 32)) :
      StopCalls d c (.wait .stop d.pid res :: .kill d.pid :: c)

/-- Everything a command other than `load`, `break`, `delete` and `exit` can do to
the record and to the children, one step at a time, on any host. -/
inductive Move : Snap → Snap → Prop
  | waited (d : Debugger) (c : List Call) (res : Option (BitVec 32)) :
      Move (d, c) ({ d with status := res.getD d.status }, .wait .cmd d.pid res :: c)
  | killed (d : Debugger) (c : List Call) (st : BitVec 32)
      (running : d.stat = .running) (exited : WIFEXITED st = true) :
      Move (d, .wait .cmd d.pid (some st) :: c)
        (d, .kill d.pid :: .wait .cmd d.pid (some st) :: c)
  | reaped (d : Debugger) (c : List Call) (st : BitVec 32) (res : Option (BitVec 32))
      (exited : WIFEXITED st = true) :
      Move (d, .kill d.pid :: .wait .cmd d.pid (some st) :: c)
        (d, .wait .stop d.pid res :: .kill d.pid :: .wait .cmd d.pid (some st) :: c)
  | ended (d d' : Debugger) (c : List Call) (stop : stopRecord d = some d') :
      Move (d, c) (d', c)
  | failed (d : Debugger) (c : List Call) (loaded : d.stat = .loaded) :
      Move (d, c) ({ d with pid := -1 }, .fork none :: c)
  | forked (d : Debugger) (c : List Call) (pid : Nat) (loaded : d.stat = .loaded) :
      Move (d, c) ({ d with pid := pid }, .fork (some pid) :: c)
  | awaited (d : Debugger) (c : List Call) (pid : Nat) (res : Option (BitVec 32))
      (loaded : d.stat = .loaded) (child : d.pid = pid) :
      Move (d, .fork (some pid) :: c)
        ({ d with status := res.getD d.status }, .wait .start pid res :: .fork (some pid) :: c)
  | started (d : Debugger) (c : List Call) (pid : Nat) (st : BitVec 32) (ptext : Phdr)
      (base : Word) (bp : List BreakPt) (loaded : d.stat = .loaded)
      (child : d.pid = pid) (stopped : WIFSTOPPED st = true)
      (text : d.ptextHdr = some ptext) (bias : base = 0 ∨ ptext.vaddr = 0)
      (moved : bp.map (fun b => (b.id, b.addr)) = d.bp.map (fun b => (b.id, b.addr + base))) :
      Move (d, .wait .start pid (some st) :: .fork (some pid) :: c)
        ({ d with base := base, bp := bp, stat := .running },
          .wait .start pid (some st) :: .fork (some pid) :: c)
  | dumped (d : Debugger) (c : List Call) (next : Word) (running : d.stat = .running) :
      Move (d, c) ({ d with ldump := next }, c)
  | swept (d : Debugger) (c : List Call) (next : Word) (loaded : d.stat ≠ .init) :
      Move (d, c) ({ d with ldisasm := next }, c)

abbrev Moves : Snap → Snap → Prop := Relation.ReflTransGen Move

/-- The two records are about the same program, with the same text segment and section. -/
structure SameFile (d d' : Debugger) : Prop where
  program : d'.program = d.program
  eh : d'.eh = d.eh
  ptext : d'.ptext = d.ptext
  stext : d'.stext = d.stext

section File
variable {d d' d'' : Debugger}

theorem SameFile.refl (d : Debugger) : SameFile d d := ⟨rfl, rfl, rfl, rfl⟩

theorem SameFile.trans (h : SameFile d d') (h' : SameFile d' d'') : SameFile d d'' :=
  ⟨h'.program.trans h.program, h'.eh.trans h.eh, h'.ptext.trans h.ptext, h'.stext.trans h.stext⟩

theorem SameFile.ptextHdr (h : SameFile d d') : d'.ptextHdr = d.ptextHdr := by
  rw [Debugger.ptextHdr, Debugger.ptextHdr, h.eh, h.ptext]

theorem SameFile.stextHdr (h : SameFile d d') : d'.stextHdr = d.stextHdr := by
  rw [Debugger.stextHdr, Debugger.stextHdr, h.eh, h.stext]

theorem stopRecord_file (h : stopRecord d = some d') : SameFile d d' := by
  unfold stopRecord at h
  cases hs : d.stat with
  | init => rw [hs] at h; cases h; exact .refl d
  | loaded => rw [hs] at h; cases h; exact ⟨rfl, rfl, rfl, rfl⟩
  | running =>
    rw [hs] at h
    obtain ⟨ptext, _, he⟩ := Option.map_eq_some_iff.mp h
    subst he
    split <;> exact ⟨rfl, rfl, rfl, rfl⟩

/-- No move changes the program. -/
theorem move_file {s s' : Snap} (hm : Move s s') : SameFile s.1 s'.1 := by
  cases hm with
  | ended d d' c stop => exact stopRecord_file stop
  | _ => exact ⟨rfl, rfl, rfl, rfl⟩

theorem moves_file {s s' : Snap} (hm : Moves s s') : SameFile s.1 s'.1 := by
  induction hm with
  | refl => exact .refl _
  | tail _ step ih => exact ih.trans (move_file step)

end File

/-- From `w`, the computation takes the snapshot along moves, however it ends. -/
def Along (c : DbgM σ α) (w : World σ) : Prop :=
  Wp c (fun _ w' => Moves (snap w) (snap w')) (fun _ w' => Moves (snap w) (snap w')) w

/-- The computation leaves what `f` sees as it is, however it ends, and stops early
only for a reason that meets `X`. -/
def Keeps (f : World σ → β) (X : Halt → Prop) (c : DbgM σ α) : Prop :=
  ∀ w, Wp c (fun _ w' => f w' = f w) (fun e w' => f w' = f w ∧ X e) w

/-- An end that is not one of `ERRQUIT` or `exit`. -/
def Fault (e : Halt) : Prop := ∀ code, e ≠ .exit code

/-- Everything but the output. -/
def core (w : World σ) : Debugger × σ × List Call := (w.dbg, w.os, w.calls)

/-- Everything but the output and the cursors of `dump` and `disasm`. -/
def calm (w : World σ) : Debugger × σ × List Call :=
  ({ w.dbg with ldump := 0, ldisasm := 0 }, w.os, w.calls)

abbrev Looks (c : DbgM σ α) : Prop := Keeps core Fault c

/-- Nothing but output, and always a return. -/
abbrev Prints (c : DbgM σ α) : Prop := Keeps core (fun _ => False) c

abbrev Still (c : DbgM σ α) : Prop := Keeps snap (fun _ => True) c

theorem core_eq {w w' : World σ} (h : core w' = core w) :
    w'.dbg = w.dbg ∧ w'.os = w.os ∧ w'.calls = w.calls := by
  obtain ⟨hd, ho⟩ := Prod.mk.inj h
  obtain ⟨ho, hc⟩ := Prod.mk.inj ho
  exact ⟨hd, ho, hc⟩

section Combinators
variable {σ α β γ : Type} {c : DbgM σ α} {f : α → DbgM σ β} {w : World σ} {g : World σ → γ}
  {X : Halt → Prop}

theorem Keeps.pure (a : α) : Keeps g X (pure a : DbgM σ α) := fun _ => rfl

theorem Keeps.throw {e : Halt} (h : X e) : Keeps g X (throw e : DbgM σ α) := fun _ => ⟨rfl, h⟩

theorem Keeps.bind (hc : Keeps g X c) (hf : ∀ a, Keeps g X (f a)) : Keeps g X (c >>= f) := by
  intro w
  rw [wp_bind]
  refine (hc w).mono ?_ (fun _ _ he => he)
  intro a w' he
  exact (hf a w').mono (fun _ _ h => h.trans he) (fun _ _ h => ⟨h.1.trans he, h.2⟩)

theorem Keeps.mono {γ' : Type} {g' : World σ → γ'} {X' : Halt → Prop} (hc : Keeps g X c)
    (hg : ∀ w w', g w' = g w → g' w' = g' w) (hX : ∀ e, X e → X' e) : Keeps g' X' c :=
  fun w => (hc w).mono (fun _ _ h => hg _ _ h) (fun _ _ h => ⟨hg _ _ h.1, hX _ h.2⟩)

theorem Keeps.along (h : Keeps snap X c) : Along c w :=
  (h w).mono (fun _ _ he => he ▸ .refl) (fun _ _ he => he.1 ▸ .refl)

theorem snap_of_core {w w' : World σ} (h : core w' = core w) : snap w' = snap w := by
  obtain ⟨hd, _, hc⟩ := core_eq h
  exact Prod.ext hd hc

theorem calm_of_core {w w' : World σ} (h : core w' = core w) : calm w' = calm w := by
  obtain ⟨hd, ho, hc⟩ := core_eq h
  unfold calm
  rw [hd, ho, hc]

theorem Keeps.still (h : Keeps core X c) : Still c :=
  h.mono (fun _ _ => snap_of_core) (fun _ _ => trivial)

theorem Looks.calm (h : Looks c) : Keeps calm Fault c :=
  h.mono (fun _ _ => calm_of_core) (fun _ h => h)

theorem Along.bind (hc : Along c w)
    (hf : ∀ a w', Moves (snap w) (snap w') → c w = .ok a w' → Along (f a) w') :
    Along (c >>= f) w := by
  unfold Along at hc ⊢
  rw [wp_bind]
  unfold Wp at hc ⊢
  cases hr : c w with
  | ok a w' =>
    rw [hr] at hc
    exact (hf a w' hc hr).mono (fun _ _ h => hc.trans h) (fun _ _ h => hc.trans h)
  | error e w' =>
    rw [hr] at hc
    exact hc

theorem Along.dbg {f : Debugger → DbgM σ β} (h : Along (f w.dbg) w) : Along (dbg >>= f) w := h

theorem fault_crash : Fault .crash := fun _ h => by cases h

theorem looks_deref (p : Option α) : Looks (deref p : DbgM σ α) := by
  cases p with
  | none => exact .throw fault_crash
  | some a => exact .pure a

theorem prints_print (o : Out) : Prints (print o : DbgM σ Unit) := fun _ => rfl

theorem prints_errmsg (fmt : String) (args : List Arg) :
    Prints (errmsg fmt args : DbgM σ Unit) := fun _ => rfl

theorem prints_ask (f : σ → α) : Prints (ask f : DbgM σ α) := fun _ => rfl

theorem Prints.looks (h : Prints c) : Looks c := h.mono (fun _ _ h => h) (fun _ h => h.elim)

theorem looks_dbg : Looks (dbg : DbgM σ Debugger) := fun _ => rfl

theorem looks_print (o : Out) : Looks (print o : DbgM σ Unit) := (prints_print o).looks

theorem looks_errmsg (fmt : String) (args : List Arg) :
    Looks (errmsg fmt args : DbgM σ Unit) := (prints_errmsg fmt args).looks

theorem looks_ask (f : σ → α) : Looks (ask f : DbgM σ α) := (prints_ask f).looks

theorem reads_errquit (code : Int) (fmt : String) :
    Keeps core (fun _ => True) (errquit code fmt : DbgM σ α) := fun _ => ⟨rfl, trivial⟩

/-- Where an exit is allowed as well. -/
theorem Looks.reads (h : Looks c) : Keeps core (fun _ => True) c :=
  h.mono (fun _ _ h => h) (fun _ _ => trivial)

end Combinators

section Quiet
variable {σ : Type} (H : Host σ)

theorem looks_peek (pid : Int) (addr : Word) : Looks (ptracePeek H pid addr) := fun _ => rfl

theorem looks_getRegs (pid : Int) : Looks (ptraceGetRegs H pid) := fun _ => rfl

theorem still_poke (pid : Int) (addr data : Word) : Still (ptracePoke H pid addr data) :=
  fun _ => rfl

theorem still_setRegs (pid : Int) (regs : Regs) : Still (ptraceSetRegs H pid regs) :=
  fun _ => rfl

theorem still_bpPatch (target : Word) : Still (bpPatch H target) := by
  refine looks_dbg.still.bind fun d => (looks_peek H _ _).still.bind fun code => ?_
  refine (still_poke H _ _ _).bind fun ok => ?_
  split
  · exact .pure _
  · exact (looks_errmsg _ _).still.bind fun _ => .pure _

theorem still_bpUnpatch (b : BreakPt) : Still (bpUnpatch H b) := by
  refine looks_dbg.still.bind fun d => (still_poke H _ _ _).bind fun ok => ?_
  split
  · exact .pure _
  · exact (looks_errmsg _ _).still

theorem reads_bpCheck : Keeps core (fun _ => True) (bpCheck H) := by
  refine looks_dbg.reads.bind fun d => (looks_getRegs H _).reads.bind fun regs => ?_
  split
  · exact reads_errquit _ _
  · exact .pure _

theorem prints_printInsns (l : List Insn) : Prints (printInsns l : DbgM σ Unit) := by
  induction l with
  | nil => exact .pure _
  | cons i rest ih => exact (prints_print _).bind fun _ => ih

theorem prints_disasm (code : List Byte) (addr : Word) (n : Nat) :
    Prints (disasm H code addr n) := by
  refine (prints_ask _).bind fun opened => ?_
  split
  · exact (prints_errmsg _ _).bind fun _ => .pure _
  · dsimp only
    split
    · exact (prints_errmsg _ _).bind fun _ => .pure _
    · exact (prints_printInsns _).bind fun _ => .pure _

theorem prints_showBreak (b : BreakPt) : Prints (showBreak H b) :=
  (prints_print _).bind fun _ => (prints_disasm H _ _ _).bind fun _ => .pure _

theorem still_resetRip : Still (resetRip H) := by
  refine looks_dbg.still.bind fun d => (looks_getRegs H _).still.bind fun regs => ?_
  split
  · exact (reads_errquit _ _).still
  · split
    · exact .pure _
    · refine (still_setRegs H _ _).bind fun ok => ?_
      split
      · exact (looks_deref _).still.bind fun _ => (prints_showBreak H _).looks.still
      · exact (looks_errmsg _ _).still

end Quiet

section Stop
variable {σ : Type} (H : Host σ)

theorem killChild_calls (w : World σ) (running : w.dbg.stat = .running) :
    Wp (killChild H) (fun _ w' => w'.dbg = w.dbg ∧ StopCalls w.dbg w.calls w'.calls)
      (fun e w' => (∀ code, e ≠ .exit code) ∧ w'.dbg = w.dbg ∧
        StopCalls w.dbg w.calls w'.calls) w := by
  simp only [killChild, wp_bind, wp_dbg, wp_sysKill, wp_ite, wp_pure]
  refine ⟨fun _ => wp_sysWaitpid ?_ ?_ ?_, fun _ => ⟨trivial, .killed running⟩⟩
  · exact fun _ _ => ⟨rfl, .reaped running none⟩
  · exact fun st _ _ => ⟨rfl, .reaped running (some st)⟩
  · exact fun _ _ => ⟨by simp, rfl, .killed running⟩

/-- What `stop_debugger` does to the record, and the only process control it does. -/
theorem stopDebugger_spec (w : World σ) :
    Wp (stopDebugger H)
      (fun _ w' => stopRecord w.dbg = some w'.dbg ∧ StopCalls w.dbg w.calls w'.calls)
      (fun e w' => (∀ code, e ≠ .exit code) ∧ w'.dbg = w.dbg ∧
        StopCalls w.dbg w.calls w'.calls) w := by
  simp only [stopDebugger, wp_bind, wp_dbg, wp_ite, wp_pure]
  refine ⟨fun hi => ⟨by simp [stopRecord, hi], .idle (by simp [hi])⟩, fun hi => ⟨fun hr => ?_, fun hr => ?_⟩⟩
  · refine (killChild_calls H w hr).mono ?_ (fun _ _ he => he)
    rintro _ w' ⟨hd, hc⟩
    cases ht : w.dbg.ptextHdr with
    | none => exact ⟨by simp, hd, hc⟩
    | some ptext =>
      simp only [wp_deref_some, wp_ite, wp_setDbg, wp_bind]
      refine ⟨fun hv => ⟨?_, hc⟩, fun hv => ⟨?_, hc⟩⟩
      · simp only [stopRecord, hr, ht, hd, Option.map_some, if_pos hv]
      · simp only [stopRecord, hr, ht, hd, Option.map_some, if_neg hv]
  · have hl : w.dbg.stat = .loaded := by
      cases hs : w.dbg.stat <;> simp_all
    simp only [wp_setDbg]
    exact ⟨by simp [stopRecord, hl], .idle hr⟩

theorem freeDebugger_spec (w : World σ) :
    Wp (freeDebugger H)
      (fun _ w' => (∃ d, stopRecord w.dbg = some d ∧ w'.dbg = d.reset) ∧
        StopCalls w.dbg w.calls w'.calls)
      (fun e w' => (∀ code, e ≠ .exit code) ∧ w'.dbg = w.dbg ∧
        StopCalls w.dbg w.calls w'.calls) w := by
  simp only [freeDebugger, wp_bind, resetDebugger]
  refine (stopDebugger_spec H w).mono ?_ (fun _ _ he => he)
  intro _ w' hs
  obtain ⟨hd, hc⟩ := hs
  exact ⟨⟨w'.dbg, hd, rfl⟩, hc⟩

end Stop

section Runs
variable {σ : Type} (H : Host σ)

/-- The kill behind an exit status that `cmd` has just received. -/
theorem stopCalls_moves {d : Debugger} {c c' : List Call} {st : BitVec 32}
    (exited : WIFEXITED st = true) (h : StopCalls d (.wait .cmd d.pid (some st) :: c) c') :
    Moves (d, .wait .cmd d.pid (some st) :: c) (d, c') := by
  cases h with
  | idle => exact .refl
  | killed hr => exact .single (.killed d c st hr exited)
  | reaped hr res => exact .tail (.single (.killed d c st hr exited)) (.reaped d c st res exited)

theorem cmd_along (param : Resume) (w : World σ) : Along (cmd H param) w := by
  unfold Along
  simp only [cmd, wp_bind, wp_dbg, wp_ptraceResume]
  apply wp_sysWaitpid
  · intro os _
    exact .single (.waited w.dbg w.calls none)
  · intro st os _
    have hw : Moves (snap w) ({ w.dbg with status := st }, .wait .cmd w.dbg.pid (some st) :: w.calls) :=
      .single (.waited w.dbg w.calls (some st))
    simp only [wp_bind, wp_setDbg, wp_ite]
    refine ⟨fun hx => ?_, fun _ => ⟨fun _ => ?_, fun _ => ?_⟩⟩
    · refine (stopDebugger_spec H _).mono ?_ ?_
      · rintro _ w' ⟨hd, hc⟩
        have hs : Moves (snap w) (snap w') :=
          (hw.trans (stopCalls_moves hx hc)).tail (.ended _ _ _ hd)
        rw [wp_ite]
        exact ⟨fun _ => hs, fun _ => hs⟩
      · rintro _ w' ⟨_, hd, hc⟩
        have hs := hw.trans (stopCalls_moves hx hc)
        simpa [snap, hd] using hs
    · exact (still_resetRip H).along.mono (fun _ _ h => hw.trans h) (fun _ _ h => hw.trans h)
    · exact hw
  · intro os _
    exact .refl

theorem si_along (w : World σ) : Along (cmdSi H) w := by
  refine Along.dbg ?_
  split
  · exact (looks_errmsg _ _).still.along
  · refine (reads_bpCheck H).still.along.bind fun i w₁ _ _ => ?_
    split
    · exact cmd_along H _ _
    · refine (looks_deref _).still.along.bind fun b w₂ _ _ => ?_
      refine (still_bpUnpatch H b).along.bind fun _ w₃ _ _ => ?_
      refine (cmd_along H _ _).bind fun _ w₄ _ _ => ?_
      refine Along.dbg ?_
      refine (looks_deref _).still.along.bind fun b w₅ _ _ => ?_
      exact ((still_bpPatch H _).bind fun _ => .pure _).along

theorem bpPatch_returns (target : Word) (w : World σ) :
    Wp (bpPatch H target) (fun _ w' => snap w' = snap w) (fun _ _ => False) w := by
  simp only [bpPatch, wp_bind, wp_dbg, wp_ptracePeek, wp_ptracePoke, wp_ite, wp_pure, wp_errmsg]
  exact ⟨fun _ => rfl, fun _ => rfl⟩

/-- The loop of `cmd_start` returns the same breakpoints at their run addresses. -/
theorem patchLoop_spec (base : Word) (l : List BreakPt) (w : World σ) :
    Wp (patchLoop H base l)
      (fun bp w' => snap w' = snap w ∧
        bp.map (fun b => (b.id, b.addr)) = l.map (fun b => (b.id, b.addr + base)))
      (fun _ _ => False) w := by
  induction l generalizing w with
  | nil => exact ⟨rfl, rfl⟩
  | cons b rest ih =>
    simp only [patchLoop, wp_bind]
    refine (bpPatch_returns H _ w).mono ?_ (fun _ _ h => h)
    intro code w₁ h₁
    rw [wp_bind]
    refine (ih w₁).mono ?_ (fun _ _ h => h)
    rintro bp w₂ ⟨h₂, hm⟩
    exact ⟨h₂.trans h₁, by simp [hm]⟩

theorem looks_scanBegin (maps : String) : Looks (scanBegin H maps) := by
  unfold scanBegin
  split
  · exact .pure _
  · exact looks_ask _

theorem startAt_along {pid : Nat} {begin_ : Word} {st : BitVec 32} {c : List Call} {w : World σ}
    (calls : w.calls = .wait .start pid (some st) :: .fork (some pid) :: c)
    (loaded : w.dbg.stat = .loaded) (child : w.dbg.pid = pid) (stopped : WIFSTOPPED st = true) :
    Along (startAt H pid begin_) w := by
  unfold Along startAt
  simp only [wp_bind, wp_dbg]
  cases ht : w.dbg.ptextHdr with
  | none => exact .refl
  | some ptext =>
    simp only [wp_deref_some, wp_bind, wp_setDbg]
    refine (patchLoop_spec H _ _ _).mono ?_ (fun _ _ h => h.elim)
    rintro bp w₁ ⟨hs, hm⟩
    have hd := dbg_eq hs
    have hc := calls_eq hs
    dsimp only at hd hc
    have hmove : Moves (snap w) ({ w₁.dbg with bp := bp, stat := .running }, w₁.calls) := by
      refine .single ?_
      rw [hd, hc, snap, calls]
      refine .started w.dbg c pid st ptext _ bp loaded child stopped ht ?_ hm
      by_cases hv : ptext.vaddr = 0
      · exact .inr hv
      · exact .inl (if_neg hv)
    simp only [wp_bind, wp_setDbg, wp_errmsg]
    refine ((reads_bpCheck H).still _).mono ?_ (fun _ w₂ h => ?_)
    · intro i w₂ h
      cases i with
      | none =>
        rw [wp_pure, h]
        exact hmove
      | some i =>
        refine (((looks_deref _).bind fun b => (prints_showBreak H b).looks).still w₂).mono ?_ ?_
        · exact fun _ w₃ h' => h'.trans h ▸ hmove
        · exact fun _ w₃ h' => h'.1.trans h ▸ hmove
    · exact h.1 ▸ hmove

theorem startChild_along {pid : Nat} {st : BitVec 32} {c : List Call} {w : World σ}
    (calls : w.calls = .wait .start pid (some st) :: .fork (some pid) :: c)
    (loaded : w.dbg.stat = .loaded) (child : w.dbg.pid = pid) (stopped : WIFSTOPPED st = true) :
    Along (startChild H pid) w := by
  have read : Looks (do
      let maps ← deref (← ask (H.maps pid))
      scanBegin H maps) :=
    (looks_ask _).bind fun maps => (looks_deref _).bind fun maps => looks_scanBegin H maps
  have split : startChild H pid = (do
      let maps ← deref (← ask (H.maps pid))
      scanBegin H maps) >>= startAt H pid := by
    simp only [startChild, bind_assoc]
  rw [split]
  refine read.still.along.bind fun begin_ w₀ _ hr => ?_
  obtain ⟨hd, _, hc⟩ := core_eq ((read w).ok hr)
  exact startAt_along H (hc ▸ calls) (hd ▸ loaded) (hd ▸ child) stopped

theorem start_along (argv : List String) (w : World σ) : Along (cmdStart H argv) w := by
  refine Along.dbg ?_
  split
  · exact (looks_errmsg _ _).still.along
  · rename_i hi
    split
    · exact (looks_errmsg _ _).still.along
    · rename_i hr
      have hl : w.dbg.stat = .loaded := by
        cases hs : w.dbg.stat <;> simp_all
      unfold Along
      simp only [wp_bind, wp_sysFork]
      cases (H.fork w.dbg.programText (copyArgv w.dbg.programText argv) w.os).1 with
      | none => exact .single (.failed w.dbg w.calls hl)
      | some pid =>
        have hf : Moves (snap w) ({ w.dbg with pid := pid }, .fork (some pid) :: w.calls) :=
          .single (.forked w.dbg w.calls pid hl)
        simp only [wp_bind, wp_setDbg]
        apply wp_sysWaitpid
        · intro os _
          exact hf.tail (.awaited _ _ pid none hl rfl)
        · intro st os _
          have hw := hf.tail (.awaited { w.dbg with pid := pid } w.calls pid (some st) hl rfl)
          simp only [wp_bind, wp_setDbg, wp_ite]
          refine ⟨fun _ => hw, fun hst => ?_⟩
          refine Wp.mono (startChild_along H rfl hl rfl (by simpa using hst)) ?_ ?_
          · exact fun _ w' h => hw.trans h
          · exact fun _ w' h => hw.trans h
        · intro os _
          exact hf

theorem cont_along {exec : List String → DbgM σ Unit} {argv : List String}
    (h : ∀ w, Along (exec (copyArgv "si" argv)) w) (w : World σ) :
    Along (cmdCont H exec argv) w := by
  refine Along.dbg ?_
  split
  · exact (looks_errmsg _ _).still.along
  · exact (h _).bind fun _ w₁ _ _ => cmd_along H _ _

theorem run_along {exec : List String → DbgM σ Unit} {argv : List String}
    (hs : ∀ w, Along (exec (copyArgv "start" argv)) w)
    (hc : ∀ w, Along (exec (copyArgv "cont" argv)) w) (w : World σ) :
    Along (cmdRun H exec argv) w := by
  have tail : ∀ w, Along (do
      if (← bpCheck H).isNone then
        exec (copyArgv "cont" argv)) w := by
    intro w
    refine (reads_bpCheck H).still.along.bind fun i w₁ _ _ => ?_
    split
    · exact hc w₁
    · exact (Keeps.pure (g := snap) (X := fun _ => True) _).along
  refine Along.dbg ?_
  split
  · exact (looks_errmsg _ _).still.along
  · split
    · exact (hs w).bind fun _ w₁ _ _ => tail w₁
    · exact (looks_errmsg _ _).still.along.bind fun _ w₁ _ _ => tail w₁

theorem reads_get (argv : List String) : Keeps core (fun _ => True) (cmdGet H argv) := by
  unfold cmdGet
  split
  · exact (looks_errmsg _ _).reads
  · refine looks_dbg.reads.bind fun d => ?_
    split
    · exact (looks_errmsg _ _).reads
    · refine (looks_getRegs H _).reads.bind fun regs => ?_
      split
      · exact reads_errquit _ _
      · split
        · exact (looks_print _).reads
        · exact (looks_errmsg _ _).reads

theorem reads_getregs : Keeps core (fun _ => True) (cmdGetregs H) := by
  refine looks_dbg.reads.bind fun d => ?_
  split
  · exact (looks_errmsg _ _).reads
  · refine (looks_getRegs H _).reads.bind fun regs => ?_
    split
    · exact reads_errquit _ _
    · exact (looks_print _).reads

theorem still_set (argv : List String) : Still (cmdSet H argv) := by
  unfold cmdSet
  split
  · refine looks_dbg.still.bind fun d => ?_
    split
    · exact (looks_errmsg _ _).still
    · refine (looks_getRegs H _).still.bind fun regs => ?_
      split
      · exact (reads_errquit _ _).still
      · split
        · refine (still_setRegs H _ _).bind fun ok => ?_
          split
          · exact .pure _
          · exact (looks_errmsg _ _).still
        · exact (looks_errmsg _ _).still
  · exact (looks_errmsg _ _).still

theorem looks_dumpRows (n : Nat) (target : Word) : Looks (dumpRows H n target) := by
  induction n generalizing target with
  | zero => exact .pure _
  | succ n ih =>
    refine looks_dbg.bind fun d => (looks_peek H _ _).bind fun lo => ?_
    exact (looks_peek H _ _).bind fun hi => (looks_print _).bind fun _ => ih _

theorem calm_dump (argv : List String) : Keeps calm Fault (cmdDump H argv) := by
  refine looks_dbg.calm.bind fun d => ?_
  split
  · exact (looks_errmsg _ _).calm
  · split
    · exact (looks_errmsg _ _).calm
    · exact (looks_dumpRows H _ _).calm.bind fun _ _ => rfl

theorem dump_along (argv : List String) (w : World σ) : Along (cmdDump H argv) w := by
  refine Along.dbg ?_
  split
  · exact (looks_errmsg _ _).still.along
  · split
    · exact (looks_errmsg _ _).still.along
    · rename_i hr
      unfold Along
      simp only [wp_bind]
      refine ((looks_dumpRows H _ _).still w).mono ?_ (fun _ _ h => h.1 ▸ .refl)
      intro _ w₁ h
      simp only [wp_setDbg, ← h]
      exact .single (.dumped w₁.dbg w₁.calls _ (by rw [dbg_eq h]; simpa using hr))

theorem looks_peekWords (n : Nat) (addr : Word) : Looks (peekWords H n addr) := by
  induction n generalizing addr with
  | zero => exact .pure _
  | succ n ih =>
    exact looks_dbg.bind fun d => (looks_peek H _ _).bind fun word =>
      (ih _).bind fun rest => .pure _

theorem looks_fileCode (d : Debugger) (window : BitVec 32 × BitVec 32) :
    Looks (fileCode H d window) := by
  refine (looks_ask _).bind fun got => (looks_deref _).bind fun got => ?_
  split
  · exact .throw fault_crash
  · exact (looks_ask _).bind fun stack => .pure _

theorem calm_showCode (code : List Byte) (addr : Word) : Keeps calm Fault (showCode H code addr) :=
  (prints_disasm H _ _ _).looks.calm.bind fun _ _ => rfl

theorem showCode_along {code : List Byte} {addr : Word} {w : World σ} (h : w.dbg.stat ≠ .init) :
    Along (showCode H code addr) w := by
  unfold Along showCode
  simp only [wp_bind]
  refine ((prints_disasm H _ _ _).looks.still w).mono ?_ (fun _ _ h => h.1 ▸ .refl)
  intro size w₁ hs
  simp only [wp_setDbg, ← hs]
  exact .single (.swept w₁.dbg w₁.calls _ (by rw [dbg_eq hs]; exact h))

theorem calm_disasm (argv : List String) : Keeps calm Fault (cmdDisasm H argv) := by
  refine looks_dbg.calm.bind fun d => ?_
  split
  · exact (looks_errmsg _ _).calm
  · split
    · exact (looks_errmsg _ _).calm
    · dsimp only
      split
      · refine (looks_deref _).calm.bind fun ptext => (looks_deref _).calm.bind fun stext => ?_
        split
        · exact (looks_errmsg _ _).calm
        · exact (looks_fileCode H _ _).calm.bind fun code => calm_showCode H _ _
      · refine (looks_peekWords H _ _).calm.bind fun code => ?_
        exact (looks_deref _).calm.bind fun code => calm_showCode H _ _

/-- A computation that leaves the snapshot alone and one that may use its guard. -/
theorem Looks.then {c : DbgM σ α} {f : α → DbgM σ β} {w : World σ} (hc : Looks c)
    (hf : ∀ a w', snap w' = snap w → Along (f a) w') : Along (c >>= f) w :=
  hc.still.along.bind fun a w' _ hr => hf a w' ((hc.still w).ok hr)

theorem disasm_along (argv : List String) (w : World σ) : Along (cmdDisasm H argv) w := by
  refine Along.dbg ?_
  split
  · exact (looks_errmsg _ _).still.along
  · split
    · exact (looks_errmsg _ _).still.along
    · rename_i hi
      have keep : ∀ w' : World σ, snap w' = snap w → w'.dbg.stat ≠ .init := by
        intro w' h
        rw [dbg_eq h]
        exact hi
      dsimp only
      split
      · refine Looks.then (looks_deref _) fun ptext w₁ h₁ => ?_
        refine Looks.then (looks_deref _) fun stext w₂ h₂ => ?_
        split
        · exact (looks_errmsg _ _).still.along
        · refine Looks.then (looks_fileCode H _ _) fun code w₃ h₃ => ?_
          exact showCode_along H (keep w₃ (h₃.trans (h₂.trans h₁)))
      · refine Looks.then (looks_peekWords H _ _) fun code w₁ h₁ => ?_
        refine Looks.then (looks_deref _) fun code w₂ h₂ => ?_
        exact showCode_along H (keep w₂ (h₂.trans h₁))

theorem looks_listBreaks (l : List BreakPt) : Looks (listBreaks l : DbgM σ Unit) := by
  induction l with
  | nil => exact .pure _
  | cons b rest ih => exact (looks_print _).bind fun _ => ih

theorem looks_list : Looks (cmdList : DbgM σ Unit) :=
  looks_dbg.bind fun d => looks_listBreaks d.bp

theorem looks_mapsLoop (n : Nat) (v : MapsVars) (s : List Char) :
    Looks (mapsLoop n v s : DbgM σ Unit) := by
  induction n generalizing v s with
  | zero => exact .pure _
  | succ n ih =>
    unfold mapsLoop
    split
    · exact .pure _
    · exact .throw fault_crash
    · exact (looks_print _).bind fun _ => ih _ _

theorem looks_vmmap : Looks (cmdVmmap H) := by
  refine looks_dbg.bind fun d => ?_
  split
  · exact (looks_deref _).bind fun stext => looks_print _
  · split
    · refine (looks_ask _).bind fun maps => (looks_deref _).bind fun maps => ?_
      exact (looks_ask _).bind fun v => looks_mapsLoop _ _ _
    · exact looks_errmsg _ _

end Runs

section Dispatch
variable {σ : Type} (H : Host σ)

/-- A word that only one command answers to finds it in any order of registration. -/
theorem lookup_unique {list : List Builtin} (registered : list.Perm Builtin.all) {word : String}
    {b : Builtin} (hb : (b.name == word || b.nick == word) = true)
    (hu : ∀ b' ∈ Builtin.all, (b'.name == word || b'.nick == word) = true → b' = b) :
    lookup list word = some b := by
  have hm : b ∈ list := registered.mem_iff.mpr (by cases b <;> decide)
  cases hf : lookup list word with
  | none => exact absurd hb (List.find?_eq_none.mp hf b hm)
  | some b' =>
    have hp := List.find?_some hf
    rw [hu b' (registered.mem_iff.mp (List.mem_of_find?_eq_some hf)) hp]

theorem lookup_name (b : Builtin) : lookup H.list b.name = some b := by
  apply lookup_unique H.registered
  · simp
  · cases b <;> decide

theorem exec_name (n : Nat) (b : Builtin) (argv : List String) :
    exec H (n + 1) (b.name :: argv) = b.exec H (exec H n) (b.name :: argv) := by
  simp [exec, lookup_name]

theorem exec_found {word : String} {argv : List String} {b : Builtin} (n : Nat)
    (h : lookup H.list word = some b) :
    exec H (n + 1) (word :: argv) = b.exec H (exec H n) (word :: argv) := by
  simp [exec, h]

theorem exec_unknown {word : String} {argv : List String} (n : Nat)
    (h : lookup H.list word = none) :
    exec H (n + 1) (word :: argv) = errmsg "undefined command: '%s'." [.str word] := by
  simp [exec, h]

theorem exec_si (n : Nat) (argv : List String) :
    exec H (n + 1) (copyArgv "si" argv) = cmdSi H :=
  exec_name H n .si argv.tail

theorem exec_start (n : Nat) (argv : List String) :
    exec H (n + 1) (copyArgv "start" argv) = cmdStart H (copyArgv "start" argv) :=
  exec_name H n .start argv.tail

theorem exec_cont (n : Nat) (argv : List String) :
    exec H (n + 1) (copyArgv "cont" argv) = cmdCont H (exec H n) (copyArgv "cont" argv) :=
  exec_name H n .cont argv.tail

/-- The commands that change nothing but what a `Move` changes. -/
def quiet : Builtin → Bool
  | .load | .break | .delete | .exit => false
  | _ => true

theorem quiet_along {b : Builtin} (h : quiet b = true) (argv : List String) (w : World σ) :
    Along (b.exec H (exec H 2) argv) w := by
  have hcont : ∀ n argv w, Along (cmdCont H (exec H (n + 1)) argv) w := by
    intro n argv w
    refine cont_along H (fun w => ?_) w
    rw [exec_si]
    exact si_along H w
  cases b with
  | load => cases h
  | «break» => cases h
  | delete => cases h
  | exit => cases h
  | start => exact start_along H argv w
  | run =>
    refine run_along H (fun w => ?_) (fun w => ?_) w
    · rw [exec_start]
      exact start_along H _ w
    · rw [exec_cont]
      exact hcont 0 _ w
  | si => exact si_along H w
  | cont => exact hcont 1 argv w
  | get => exact (reads_get H argv).still.along
  | getregs => exact (reads_getregs H).still.along
  | set => exact (still_set H argv).along
  | dump => exact dump_along H argv w
  | disasm => exact disasm_along H argv w
  | list => exact looks_list.still.along
  | vmmap => exact (looks_vmmap H).still.along
  | help => exact (looks_print _).still.along

end Dispatch

end UnixProgramming.Sdb.Proofs
