import UnixProgramming.Sdb.Proofs.Moves

namespace UnixProgramming.Sdb.Proofs
open Lib

/-- The address `break` takes from its arguments, if it accepts them. -/
def accepted (d : Debugger) (argv : List String) : Option Word :=
  match argv[1]?, d.stextHdr with
  | some text, some stext =>
    if d.stat = .init then none
    else if strtoll text < d.textBegin stext ∨ d.textEnd stext < strtoll text then none
    else if (d.bpFindByAddr (strtoll text)).isSome then none
    else some (strtoll text)
  | _, _ => none

/-- The record after `break`; the saved word is whatever `bp_patch` read. -/
def Broke (d : Debugger) (argv : List String) (d' : Debugger) : Prop :=
  match accepted d argv with
  | none => d' = d
  | some target => ∃ code, d' = { d with bpi := d.bpi + 1, bp := d.bp ++ [⟨d.bpi, target, code⟩] }

/-- The node `delete` unlinks, and the list it leaves. -/
def removed (d : Debugger) (argv : List String) : Option (BreakPt × List BreakPt) :=
  argv[1]?.bind fun text => unlink (atoi text) d.bp

def Deleted (d : Debugger) (argv : List String) (d' : Debugger) : Prop :=
  match removed d argv with
  | none => d' = d
  | some (_, bp) => d' = { d with bp := bp }

section Breakpoints
variable {d d' : Debugger} {argv : List String}

theorem Broke.cases (h : Broke d argv d') :
    (accepted d argv = none ∧ d' = d) ∨ ∃ target code, accepted d argv = some target ∧
      d' = { d with bpi := d.bpi + 1, bp := d.bp ++ [⟨d.bpi, target, code⟩] } := by
  unfold Broke at h
  cases ha : accepted d argv with
  | none =>
    rw [ha] at h
    exact .inl ⟨rfl, h⟩
  | some target =>
    rw [ha] at h
    obtain ⟨code, he⟩ := h
    exact .inr ⟨target, code, rfl, he⟩

theorem Deleted.cases (h : Deleted d argv d') :
    (removed d argv = none ∧ d' = d) ∨
      ∃ b bp, removed d argv = some (b, bp) ∧ d' = { d with bp := bp } := by
  unfold Deleted at h
  cases hr : removed d argv with
  | none =>
    rw [hr] at h
    exact .inl ⟨rfl, h⟩
  | some r =>
    rw [hr] at h
    exact .inr ⟨r.1, r.2, rfl, h⟩

/-- Nothing but the breakpoints changes. -/
theorem Broke.edits (h : Broke d argv d') : ∃ bpi bp, d' = { d with bpi := bpi, bp := bp } := by
  obtain ⟨_, rfl⟩ | ⟨target, code, _, he⟩ := h.cases
  · exact ⟨_, _, rfl⟩
  · exact ⟨_, _, he⟩

theorem Deleted.edits (h : Deleted d argv d') : ∃ bpi bp, d' = { d with bpi := bpi, bp := bp } := by
  obtain ⟨_, rfl⟩ | ⟨b, bp, _, he⟩ := h.cases
  · exact ⟨_, _, rfl⟩
  · exact ⟨_, _, he⟩

theorem Broke.file (h : Broke d argv d') : SameFile d d' := by
  obtain ⟨bpi, bp, he⟩ := h.edits
  rw [he]
  exact ⟨rfl, rfl, rfl, rfl⟩

theorem Deleted.file (h : Deleted d argv d') : SameFile d d' := by
  obtain ⟨bpi, bp, he⟩ := h.edits
  rw [he]
  exact ⟨rfl, rfl, rfl, rfl⟩

end Breakpoints

section Name
variable {name : String}

theorem copiedField_short {at_ n : Nat} (short : name.utf8ByteSize < at_) (old : BitVec (8 * n)) :
    copiedField name at_ old = old := by
  apply word_ext
  intro i hi
  rw [copiedField, byteOf_ofBytes _ hi, copiedByte, if_pos (by omega)]

/-- A name with room for its NUL changes `program` alone. -/
theorem copyName_short (short : name.utf8ByteSize < MAX_PROG_NAME_LEN) (d : Debugger) :
    d.copyName name = { d with program := name } := by
  have below : name.utf8ByteSize < 128 := short
  simp only [Debugger.copyName, copiedField_short (n := 4) (show name.utf8ByteSize < 132 by omega),
    copiedField_short (n := 4) (show name.utf8ByteSize < 140 by omega),
    copiedField_short (n := 8) (show name.utf8ByteSize < 144 by omega),
    copiedField_short (n := 8) (show name.utf8ByteSize < 152 by omega),
    copiedField_short (n := 8) (show name.utf8ByteSize < 160 by omega),
    if_pos (show name.utf8ByteSize < 136 by omega)]

theorem programText_short {d : Debugger} (short : d.program.utf8ByteSize < MAX_PROG_NAME_LEN) :
    d.programText = d.program := if_pos short

end Name

/-- The line does not `load` a name that runs over the end of `program`. -/
def NameFits {σ : Type} (H : Host σ) : Input σ → Prop
  | .line (word :: name :: _) =>
    lookup H.list word = some .load → name.utf8ByteSize < MAX_PROG_NAME_LEN
  | _ => True

instance {σ : Type} (H : Host σ) : DecidablePred (NameFits H)
  | .line (word :: name :: _) =>
    inferInstanceAs (Decidable (lookup H.list word = some .load → name.utf8ByteSize < _))
  | .line [] | .line [_] | .eof | .outside _ => isTrue trivial

/-- The record after the rest of `load`, from a record without a program. -/
inductive LoadResult (d : Debugger) (name : String) : Debugger → Prop
  | absent : LoadResult d name { d with eh := none }
  | rejected : LoadResult d name d.reset
  | loaded (eh : ElfHandle) (stext : Shdr)
      (found : (Debugger.findText { d with eh := some eh } eh).stextHdr = some stext)
      (fits : name.utf8ByteSize < ehOffset) :
      LoadResult d name
        { (Debugger.findText { d with eh := some eh } eh).copyName name with stat := .loaded }

/-- The record `load` starts from once `free_debugger` is done with the old program. -/
def cleared (d : Debugger) : Debugger := if d.stat = .init then d else d.reset

theorem stopRecord_reset {d d' : Debugger} (h : stopRecord d = some d') : d'.reset = d.reset := by
  unfold stopRecord at h
  cases hs : d.stat with
  | init => rw [hs] at h; cases h; rfl
  | loaded => rw [hs] at h; cases h; rfl
  | running =>
    rw [hs] at h
    obtain ⟨ptext, _, rfl⟩ := Option.map_eq_some_iff.mp h
    split <;> rfl

theorem LoadResult.idle {d d' : Debugger} {name : String} (hs : d.stat = .init)
    (h : LoadResult d name d') : d'.stat ≠ .running := by
  cases h with
  | absent => simp [hs]
  | rejected => simp [Debugger.reset]
  | loaded => simp

theorem LoadResult.bp {d d' : Debugger} {name : String} (h : LoadResult (cleared d) name d') :
    d'.bp = d.bp ∨ d'.bp = [] := by
  have hc : (cleared d).bp = d.bp ∨ (cleared d).bp = [] := by
    unfold cleared
    split
    · exact .inl rfl
    · exact .inr rfl
  cases h with
  | absent => exact hc
  | rejected => exact .inr rfl
  | loaded eh stext found fits => exact hc

theorem cleared_init (d : Debugger) : (cleared d).stat = .init := by
  unfold cleared
  split
  · assumption
  · rfl

section Elf
variable {A : Alloc}

theorem elfOpen_error {f : Option ElfFile} {why : Halt} (h : elfOpen A f = .error why) :
    why = .crash := by
  unfold elfOpen at h
  repeat' split at h
  all_goals first | cases h; rfl | cases h

theorem assignShdr_error {n : Nat} {scns : List Scn} {t : List Shdr} {why : Halt}
    (h : assignShdr n scns t = .error why) : why = .crash := by
  induction scns generalizing t with
  | nil => cases h
  | cons scn scns ih =>
    unfold assignShdr at h
    split at h
    · cases h; rfl
    · exact ih h

theorem elfLoadPhdr_error {e : ElfHandle} {why : Halt} (h : elfLoadPhdr A e = .error why) :
    why = .crash := by
  unfold elfLoadPhdr at h
  repeat' split at h
  all_goals first | cases h; rfl | cases h

theorem elfLoadShdr_error {e : ElfHandle} {why : Halt} (h : elfLoadShdr A e = .error why) :
    why = .crash := by
  unfold elfLoadShdr at h
  repeat' split at h
  all_goals try cases h
  cases ha : assignShdr e.shnum e.elf.scns ((List.range e.shnum).map A.shdr) with
  | error why' =>
    rw [ha] at h
    cases h
    exact assignShdr_error ha
  | ok t => rw [ha] at h; cases h

theorem elfLoadStrtab_error {e : ElfHandle} {why : Halt} (h : elfLoadStrtab A e = .error why) :
    why = .crash := by
  unfold elfLoadStrtab at h
  split at h
  · cases h
  · split at h
    · rename_i hs
      cases h
      exact elfLoadShdr_error hs
    · cases h
    · split at h <;> cases h

theorem elfLoadAll_error {e : ElfHandle} {why : Halt} (h : elfLoadAll A e = .error why) :
    why = .crash := by
  unfold elfLoadAll at h
  split at h
  · rename_i hp
    cases h
    exact elfLoadPhdr_error hp
  · cases h
  · split at h
    · rename_i hs
      cases h
      exact elfLoadShdr_error hs
    · cases h
    · split at h
      · rename_i ht
        cases h
        exact elfLoadStrtab_error ht
      · cases h
      · cases h

end Elf

section
variable {σ : Type} (H : Host σ)

theorem break_spec (argv : List String) (w : World σ) :
    Wp (cmdBreak H argv) (fun _ w' => w'.calls = w.calls ∧ Broke w.dbg argv w'.dbg)
      (fun e w' => e = .crash ∧ snap w' = snap w) w := by
  unfold cmdBreak Broke accepted
  cases argv[1]? with
  | none => exact ⟨rfl, rfl⟩
  | some text =>
    simp only [wp_bind, wp_dbg, wp_ite]
    refine ⟨fun hi => ?_, fun hl => ?_⟩
    · have hs : w.dbg.stat = .init := by
        cases h : w.dbg.stat <;> simp_all
      refine ⟨rfl, ?_⟩
      cases w.dbg.stextHdr <;> simp [hs]
    · have hs : w.dbg.stat ≠ .init := by
        intro h
        simp [h] at hl
      cases ht : w.dbg.stextHdr with
      | none => exact ⟨rfl, rfl⟩
      | some stext =>
        simp only [wp_deref_some, wp_ite, if_neg hs]
        refine ⟨fun hr => ⟨rfl, ?_⟩, fun hr => ⟨fun hf => ⟨rfl, ?_⟩, fun hf => ?_⟩⟩
        · simp only [if_pos hr]
        · simp only [if_neg hr, if_pos hf]
        · simp only [if_neg hr, if_neg hf]
          rw [wp_bind, wp_setDbg, wp_ite]
          refine ⟨fun _ => ?_, fun _ => ⟨rfl, 0, rfl⟩⟩
          rw [wp_bind]
          refine (bpPatch_returns H _ _).mono ?_ (fun _ _ h => h.elim)
          intro code w₁ h
          have hd := dbg_eq h
          have hc := calls_eq h
          dsimp only at hd hc
          rw [wp_setDbg, hd, hc]
          exact ⟨rfl, code, rfl⟩

theorem delete_spec (argv : List String) (w : World σ) :
    Wp (cmdDelete H argv) (fun _ w' => w'.calls = w.calls ∧ Deleted w.dbg argv w'.dbg)
      (fun _ _ => False) w := by
  unfold cmdDelete Deleted removed
  cases argv[1]? with
  | none => exact ⟨rfl, rfl⟩
  | some text =>
    simp only [wp_bind, wp_dbg, Option.bind_some]
    cases unlink (atoi text) w.dbg.bp with
    | none => exact ⟨rfl, rfl⟩
    | some r =>
      simp only [wp_bind, wp_setDbg, bpUnpatch, wp_dbg, wp_ptracePoke, wp_ite]
      exact ⟨fun _ => ⟨rfl, rfl⟩, fun _ => ⟨rfl, rfl⟩⟩

theorem loadFile_spec (name : String) (w : World σ) (init : w.dbg.stat = .init) :
    Wp (loadFile H name) (fun _ w' => w'.calls = w.calls ∧ w'.os = w.os ∧ LoadResult w.dbg name w'.dbg)
      (fun e w' => e = .crash ∧ w'.calls = w.calls) w := by
  simp only [loadFile, wp_bind, wp_ask]
  cases ho : elfOpen (H.alloc w.os) (H.elf name w.os) with
  | error why => exact ⟨elfOpen_error ho, rfl⟩
  | ok opened =>
    cases opened with
    | none => exact ⟨rfl, rfl, .absent⟩
    | some eh =>
      simp only [wp_bind, wp_setDbg]
      cases hl : elfLoadAll (H.alloc w.os) eh with
      | error why => exact ⟨elfLoadAll_error hl, rfl⟩
      | ok result =>
        obtain ⟨ok, eh'⟩ := result
        cases ok with
        | false =>
          simp only [wp_bind, wp_setDbg, freeDebugger, stopDebugger, wp_dbg, wp_ite, init]
          exact ⟨fun _ => ⟨rfl, rfl, .rejected⟩, fun h => absurd trivial h⟩
        | true =>
          simp only [wp_bind, wp_setDbg, wp_ite, resetDebugger, wp_dbg]
          refine ⟨fun _ => ⟨rfl, rfl, .rejected⟩, fun _ => ⟨fun _ => ⟨rfl, rfl, .rejected⟩, fun _ => ?_⟩⟩
          refine ⟨fun _ => ⟨rfl, rfl⟩, fun hn => ?_⟩
          cases ht : Debugger.stextHdr _ with
          | none => exact ⟨rfl, rfl⟩
          | some stext => exact ⟨rfl, rfl, .loaded eh' stext ht (by omega)⟩

theorem load_spec (argv : List String) (w : World σ) :
    Wp (cmdLoad H argv)
      (fun _ w' => match argv[1]? with
        | none => snap w' = snap w
        | some name => StopCalls w.dbg w.calls w'.calls ∧ LoadResult (cleared w.dbg) name w'.dbg)
      (fun e w' => (∀ code, e ≠ .exit code) ∧ StopCalls w.dbg w.calls w'.calls) w := by
  unfold cmdLoad
  cases argv[1]? with
  | none => exact rfl
  | some name =>
    simp only [wp_bind, wp_dbg, wp_ite]
    refine ⟨fun hl => ?_, fun hi => ?_⟩
    · refine (freeDebugger_spec H w).mono ?_ (fun _ _ h => ⟨h.1, h.2.2⟩)
      rintro _ w₁ ⟨⟨d, hd, hw⟩, hc⟩
      rw [stopRecord_reset hd] at hw
      have hcl : cleared w.dbg = w₁.dbg := by
        rw [hw, cleared, if_neg]
        rcases hl with h | h <;> simp [h]
      refine (loadFile_spec H name w₁ (by rw [hw]; rfl)).mono ?_ ?_
      · rintro _ w₂ ⟨h, _, hr⟩
        exact ⟨h ▸ hc, hcl ▸ hr⟩
      · rintro _ w₂ ⟨rfl, h⟩
        exact ⟨by simp, h ▸ hc⟩
    · have hs : w.dbg.stat = .init := by
        cases h : w.dbg.stat <;> simp_all
      have hidle : StopCalls w.dbg w.calls w.calls := .idle (by simp [hs])
      refine (loadFile_spec H name w hs).mono ?_ ?_
      · rintro _ w₂ ⟨h, _, hr⟩
        exact ⟨h ▸ hidle, by rwa [cleared, if_pos hs]⟩
      · rintro _ w₂ ⟨rfl, h⟩
        exact ⟨by simp, h ▸ hidle⟩

/-- `exit` and the end of the input never return. -/
theorem exit_spec (w : World σ) :
    Wp (freeDebugger H >>= fun _ => throw (.exit 0)) (fun (_ : Unit) _ => False)
      (fun _ w' => StopCalls w.dbg w.calls w'.calls) w := by
  rw [wp_bind]
  exact (freeDebugger_spec H w).mono (fun _ _ h => h.2) (fun _ _ h => h.2.2)

/-- Everything that can lie between two prompts, on any host. -/
inductive Round (w : World σ) : Input σ → World σ → Prop
  | outside (move : σ → σ) (w' : World σ) (same : snap w' = snap w) : Round w (.outside move) w'
  | unknown (word : String) (argv : List String) (w' : World σ)
      (found : lookup H.list word = none) (same : snap w' = snap w) :
      Round w (.line (word :: argv)) w'
  | quiet (word : String) (argv : List String) (w' : World σ) (b : Builtin)
      (found : lookup H.list word = some b) (still : quiet b = true)
      (moves : Moves (snap w) (snap w')) : Round w (.line (word :: argv)) w'
  | bare (word : String) (w' : World σ) (found : lookup H.list word = some .load)
      (same : snap w' = snap w) : Round w (.line [word]) w'
  | load (word name : String) (argv : List String) (w' : World σ)
      (found : lookup H.list word = some .load) (calls : StopCalls w.dbg w.calls w'.calls)
      (result : LoadResult (cleared w.dbg) name w'.dbg) :
      Round w (.line (word :: name :: argv)) w'
  | «break» (word : String) (argv : List String) (w' : World σ)
      (found : lookup H.list word = some .break) (calls : w'.calls = w.calls)
      (broke : Broke w.dbg (word :: argv) w'.dbg) : Round w (.line (word :: argv)) w'
  | delete (word : String) (argv : List String) (w' : World σ)
      (found : lookup H.list word = some .delete) (calls : w'.calls = w.calls)
      (deleted : Deleted w.dbg (word :: argv) w'.dbg) : Round w (.line (word :: argv)) w'

/-- Every input that returns to the prompt is one of the rounds. -/
theorem handle_round {i : Input σ} {w w' : World σ} (h : handle H i w = .ok () w') :
    Round H w i w' := by
  cases i with
  | outside move =>
    cases h
    exact .outside move _ rfl
  | eof =>
    exact ((exit_spec H w).ok h).elim
  | line argv =>
    cases argv with
    | nil => cases h
    | cons word argv =>
      cases hf : lookup H.list word with
      | none =>
        rw [handle, exec_unknown H 2 hf] at h
        cases h
        exact .unknown word argv _ hf rfl
      | some b =>
        rw [handle, exec_found H 2 hf] at h
        cases hq : quiet b with
        | true =>
          have hm : Along (b.exec H (exec H 2) (word :: argv)) w := quiet_along H hq _ w
          unfold Along at hm
          exact .quiet word argv w' b hf hq (hm.ok h)
        | false =>
          cases b with
          | load =>
            have hl := (load_spec H (word :: argv) w).ok h
            cases argv with
            | nil => exact .bare word w' hf hl
            | cons name argv => exact .load word name argv w' hf hl.1 hl.2
          | «break» =>
            have hb := (break_spec H (word :: argv) w).ok h
            exact .break word argv w' hf hb.1 hb.2
          | delete =>
            have hd := (delete_spec H (word :: argv) w).ok h
            exact .delete word argv w' hf hd.1 hd.2
          | exit => exact ((exit_spec H w).ok h).elim
          | _ => cases hq

/-- Only a `load` with a file changes the program. -/
theorem Round.file {i : Input σ} {w w' : World σ} (h : Round H w i w') :
    SameFile w.dbg w'.dbg ∨ ∃ word name argv, i = .line (word :: name :: argv) ∧
      lookup H.list word = some .load ∧ LoadResult (cleared w.dbg) name w'.dbg := by
  cases h with
  | outside move w' same => exact .inl (dbg_eq same ▸ .refl _)
  | unknown word argv w' found same => exact .inl (dbg_eq same ▸ .refl _)
  | quiet word argv w' b found still moves => exact .inl (moves_file moves)
  | bare word w' found same => exact .inl (dbg_eq same ▸ .refl _)
  | load word name argv w' found calls result => exact .inr ⟨word, name, argv, rfl, found, result⟩
  | «break» word argv w' found calls broke => exact .inl broke.file
  | delete word argv w' found calls deleted => exact .inl deleted.file

/-- Everything that can lie between a prompt and the end of the debugger, on any host. -/
inductive Abort (w : World σ) : Input σ → Halt → World σ → Prop
  | quiet (word : String) (argv : List String) (e : Halt) (w' : World σ) (b : Builtin)
      (found : lookup H.list word = some b) (still : quiet b = true)
      (moves : Moves (snap w) (snap w')) : Abort w (.line (word :: argv)) e w'
  | load (word name : String) (argv : List String) (e : Halt) (w' : World σ)
      (found : lookup H.list word = some .load) (fault : ∀ code, e ≠ .exit code)
      (calls : StopCalls w.dbg w.calls w'.calls) : Abort w (.line (word :: name :: argv)) e w'
  | exit (word : String) (argv : List String) (e : Halt) (w' : World σ)
      (found : lookup H.list word = some .exit)
      (calls : StopCalls w.dbg w.calls w'.calls) : Abort w (.line (word :: argv)) e w'
  | eof (e : Halt) (w' : World σ) (calls : StopCalls w.dbg w.calls w'.calls) : Abort w .eof e w'
  | crash (argv : List String) (w' : World σ) (calls : w'.calls = w.calls) :
      Abort w (.line argv) .crash w'

theorem handle_abort {i : Input σ} {w w' : World σ} {e : Halt} (h : handle H i w = .error e w') :
    Abort H w i e w' := by
  cases i with
  | outside move => cases h
  | eof => exact .eof e w' ((exit_spec H w).error h)
  | line argv =>
    cases argv with
    | nil =>
      cases h
      exact .crash [] w rfl
    | cons word argv =>
      cases hf : lookup H.list word with
      | none =>
        rw [handle, exec_unknown H 2 hf] at h
        cases h
      | some b =>
        rw [handle, exec_found H 2 hf] at h
        cases hq : quiet b with
        | true =>
          have hm : Along (b.exec H (exec H 2) (word :: argv)) w := quiet_along H hq _ w
          unfold Along at hm
          exact .quiet word argv e w' b hf hq (hm.error h)
        | false =>
          cases b with
          | load =>
            have hl := (load_spec H (word :: argv) w).error h
            cases argv with
            | nil => cases h
            | cons name argv => exact .load word name argv e w' hf hl.1 hl.2
          | «break» =>
            obtain ⟨he, hs⟩ := (break_spec H (word :: argv) w).error h
            subst he
            exact .crash _ w' (calls_eq hs)
          | delete => exact ((delete_spec H (word :: argv) w).error h).elim
          | exit => exact .exit word argv e w' hf ((exit_spec H w).error h)
          | _ => cases hq

end

end UnixProgramming.Sdb.Proofs
