import UnixProgramming.Sdb.Proofs.Loading

namespace UnixProgramming.Sdb.Proofs
open Lib

/-- With a program there are its handle and both text headers. -/
def Tables (d : Debugger) : Prop :=
  d.stat ≠ .init → d.eh ≠ none ∧ d.ptextHdr ≠ none ∧ d.stextHdr ≠ none

/-- The file has a text segment. -/
def HasSegment (f : ElfFile) : Prop :=
  ∃ h p, f.ehdr = some h ∧ f.phdrs = some p ∧ ∃ i < h.phnum, TextSegment (p i)

/-- `elf_open` and `elf_load_all` take the file, and `load` finds the section names and a
text section in its tables. -/
def Accepted (A : Alloc) (f : ElfFile) : Prop :=
  ∃ e e', elfOpen A (some f) = .ok (some e) ∧ elfLoadAll A e = .ok (true, e') ∧
    e'.strtab.any (·.id = e'.shstrndx) = true ∧
    (e'.shdr.getD []).any (Shdr.isText e'.entrypoint) = true

/-- Every file that `load` accepts has a text segment. -/
def Segmented (H : Host σ) (w : World σ) (i : Input σ) (_ : World σ) : Prop :=
  ∀ word name argv w₁ f, i = .line (word :: name :: argv) → lookup H.list word = some .load →
    unload H w = .ok () w₁ → H.elf name w₁.os = some f → Accepted (H.alloc w₁.os) f → HasSegment f

section Records
variable {d d' : Debugger}

theorem tables_init (h : d.stat = .init) : Tables d := fun hs => absurd h hs

/-- The tables stay with the program. -/
theorem SameFile.tables (file : SameFile d d') (loaded : d'.stat ≠ .init → d.stat ≠ .init)
    (inv : Tables d) : Tables d' := by
  intro hs
  rw [file.eh, file.ptextHdr, file.stextHdr]
  exact inv (loaded hs)

theorem stopRecord_init (h : stopRecord d = some d') (init : d.stat = .init) : d'.stat = .init := by
  unfold stopRecord at h
  rw [init] at h
  cases h
  exact init

theorem move_tables {s s' : Snap} (hm : Move s s') (inv : Tables s.1) : Tables s'.1 := by
  apply (move_file hm).tables _ inv
  cases hm with
  | ended d d' c stop => exact fun hs init => hs (stopRecord_init stop init)
  | started d c pid st ptext base bp loaded child stopped text bias moved => simp [loaded]
  | _ => exact id

theorem broke_tables {argv : List String} (h : Broke d argv d') (inv : Tables d) : Tables d' := by
  obtain ⟨bpi, bp, he⟩ := h.edits
  rw [he]
  exact inv

theorem deleted_tables {argv : List String} (h : Deleted d argv d') (inv : Tables d) : Tables d' := by
  obtain ⟨bpi, bp, he⟩ := h.edits
  rw [he]
  exact inv

theorem moves_tables {s s' : Snap} (hm : Moves s s') (inv : Tables s.1) : Tables s'.1 := by
  induction hm with
  | refl => exact inv
  | tail _ step ih => exact move_tables step ih

end Records

section Load
variable {σ : Type} {H : Host σ} {A : Alloc} {f : ElfFile} {e e' : ElfHandle} {w : World σ}
  {name : String}

theorem loadSymbols_phdr : (loadSymbols A e).phdr = e.phdr := by
  unfold loadSymbols elfLoadDsymtab elfLoadSymtab
  split <;> split <;> rfl

theorem elfLoadShdr_keeps (h : elfLoadShdr A e = .ok (some e')) : e'.phdr = e.phdr := by
  unfold elfLoadShdr at h
  split at h
  · cases h
    rfl
  · split at h
    · cases h
    · split at h
      · cases h
      · split at h
        · cases h
        · cases ha : assignShdr e.shnum e.elf.scns ((List.range e.shnum).map A.shdr) with
          | error why => rw [ha] at h; cases h
          | ok t =>
            rw [ha] at h
            cases h
            rfl

theorem elfLoadStrtab_keeps (h : elfLoadStrtab A e = .ok (some e')) : e'.phdr = e.phdr := by
  unfold elfLoadStrtab at h
  split at h
  · cases h
    rfl
  · split at h
    · cases h
    · cases h
    · rename_i hs
      split at h
      · cases h
      · cases h
      · have hkeep := elfLoadShdr_keeps hs
        cases h
        exact hkeep

/-- The program headers of an accepted file are all in memory. -/
theorem elfLoadAll_phdr (fresh : e.phdr = none) (h : elfLoadAll A e = .ok (true, e')) :
    ∃ p, e.elf.phdrs = some p ∧ e'.phdr = some ((List.range e.phnum).map p) := by
  unfold elfLoadAll at h
  split at h
  · cases h
  · cases h
  · rename_i e₁ hp
    have hphdr : ∃ p, e.elf.phdrs = some p ∧ e₁.phdr = some ((List.range e.phnum).map p) := by
      simp only [elfLoadPhdr, fresh, Option.isSome_none, Bool.false_eq_true, if_false] at hp
      split at hp
      · cases hp
      · split at hp
        · cases hp
        · split at hp
          · cases hp
          · cases hphdrs : e.elf.phdrs with
            | none => rw [hphdrs] at hp; cases hp
            | some p =>
              rw [hphdrs] at hp
              cases hp
              exact ⟨p, rfl, rfl⟩
    split at h
    · cases h
    · cases h
    · rename_i e₂ hs
      split at h
      · cases h
      · cases h
      · rename_i e₃ ht
        cases h
        have hkeep : (elfLoadDsymtab A (elfLoadSymtab A e₃)).phdr = e₁.phdr :=
          loadSymbols_phdr.trans ((elfLoadStrtab_keeps ht).trans (elfLoadShdr_keeps hs))
        rw [hkeep]
        exact hphdr

theorem elfOpen_header (h : elfOpen A (some f) = .ok (some e)) :
    ∃ hdr, f.ehdr = some hdr ∧ e.elf = f ∧ e.phnum = hdr.phnum ∧ e.phdr = none := by
  simp only [elfOpen] at h
  split at h
  · cases h
  · split at h
    · cases h
    · split at h
      · cases hehdr : f.ehdr with
        | none => rw [hehdr] at h; cases h
        | some hdr =>
          rw [hehdr] at h
          cases h
          exact ⟨hdr, rfl, rfl, rfl, rfl⟩
      · cases h

/-- A search that finds something finds an entry of a table that is there. -/
theorem found_entry {t : Option (List α)} {p : α → Bool} {i : Nat}
    (h : (t.getD []).findIdx? p = some i) : (t.bind fun l => l[i]?) ≠ none := by
  obtain ⟨hlt, _, _⟩ := List.findIdx?_eq_some_iff_getElem.mp h
  cases t with
  | none => cases hlt
  | some l =>
    rw [Option.bind_some, List.getElem?_eq_getElem (show i < l.length from hlt)]
    simp

theorem findText_stextHdr {d : Debugger} (fresh : d.stext = none)
    (found : (Debugger.findText { d with eh := some e } e).stext ≠ none) :
    (Debugger.findText { d with eh := some e } e).stextHdr ≠ none := by
  obtain ⟨i, hi⟩ := Option.ne_none_iff_exists'.mp found
  have hfind := hi
  simp only [Debugger.findText, fresh, Option.or_none] at hfind
  simp only [Debugger.stextHdr, hi]
  exact found_entry hfind

theorem findText_ptextHdr {d : Debugger} (fresh : d.ptext = none)
    (segment : ∃ p ∈ e.phdr.getD [], p.isText = true) :
    (Debugger.findText { d with eh := some e } e).ptextHdr ≠ none := by
  obtain ⟨p, hp, ht⟩ := segment
  have hfound : (e.phdr.getD []).findIdx? Phdr.isText ≠ none := by
    intro hn
    have hno := List.findIdx?_eq_none_iff.mp hn p hp
    rw [ht] at hno
    cases hno
  obtain ⟨i, hfind⟩ := Option.ne_none_iff_exists'.mp hfound
  simp only [Debugger.findText, Debugger.ptextHdr, fresh, Option.or_none, hfind]
  exact found_entry hfind

/-- The segments of an accepted file, once in memory, have a text segment if the file has. -/
theorem accepted_segment {e e' : ElfHandle} (opened : elfOpen A (some f) = .ok (some e))
    (all : elfLoadAll A e = .ok (true, e')) (segment : HasSegment f) :
    ∃ p ∈ e'.phdr.getD [], p.isText = true := by
  obtain ⟨hdr, p, hhdr, hp, i, hi, ht⟩ := segment
  obtain ⟨hdr', hhdr', helf, hnum, hfresh⟩ := elfOpen_header opened
  obtain ⟨p', hp', hphdr⟩ := elfLoadAll_phdr hfresh all
  rw [hhdr] at hhdr'
  cases hhdr'
  rw [helf, hp] at hp'
  cases hp'
  refine ⟨p i, ?_, segment_isText.mpr ht⟩
  rw [hphdr, hnum]
  exact List.mem_map_of_mem (List.mem_range.mpr hi)

/-- `load` leaves the tables of a file with a text segment, and crashes behind no others. -/
theorem loadFile_tables (init : w.dbg.stat = .init) (blank : Blank w.dbg) :
    Wp (loadFile H name)
      (fun _ w' => (∀ f, H.elf name w.os = some f → Accepted (H.alloc w.os) f → HasSegment f) →
        Tables w'.dbg)
      (fun _ w' => Tables w'.dbg) w := by
  simp only [loadFile, wp_bind, wp_ask]
  cases ho : elfOpen (H.alloc w.os) (H.elf name w.os) with
  | error why => exact tables_init init
  | ok opened =>
    cases opened with
    | none => exact fun _ => tables_init init
    | some e =>
      simp only [wp_bind, wp_setDbg]
      cases hl : elfLoadAll (H.alloc w.os) e with
      | error why => exact tables_init init
      | ok result =>
        obtain ⟨ok, e'⟩ := result
        cases ok with
        | false =>
          simp only [wp_bind, wp_setDbg, freeDebugger, stopDebugger, wp_dbg, wp_ite, init]
          exact ⟨fun _ _ => tables_init rfl, fun h => absurd trivial h⟩
        | true =>
          simp only [wp_bind, wp_setDbg, wp_ite, resetDebugger, wp_dbg]
          refine ⟨fun _ _ => tables_init rfl, fun hnames => ⟨fun _ _ => tables_init rfl, fun hsome =>
            ⟨fun _ => tables_init init, fun _ => ?_⟩⟩⟩
          rw [Option.isNone_iff_eq_none] at hsome
          have hstext := findText_stextHdr blank.stext hsome
          obtain ⟨stext, hs⟩ := Option.ne_none_iff_exists'.mp hstext
          rw [show Debugger.stextHdr _ = some stext from hs, wp_deref_some, wp_errmsg]
          intro segmented _
          refine ⟨by simp [Debugger.findText], ?_, hstext⟩
          cases hf : H.elf name w.os with
          | none => rw [hf] at ho; cases ho
          | some f =>
            rw [hf] at ho
            have accepted : Accepted (H.alloc w.os) f := by
              refine ⟨e, e', ho, hl, by simpa using hnames, ?_⟩
              obtain ⟨i, hi⟩ := Option.ne_none_iff_exists'.mp hsome
              simp only [Debugger.findText, blank.stext, Option.or_none] at hi
              obtain ⟨hlt, ht, _⟩ := List.findIdx?_eq_some_iff_getElem.mp hi
              exact List.any_eq_true.mpr ⟨_, List.getElem_mem hlt, ht⟩
            exact findText_ptextHdr blank.ptext (accepted_segment ho hl (segmented f hf accepted))

theorem unload_faults {e : Halt} {w' : World σ} (h : unload H w = .error e w') :
    w'.dbg = w.dbg := by
  have hw : Wp (unload H) (fun _ _ => True) (fun _ w' => w'.dbg = w.dbg) w := by
    simp only [unload, wp_bind, wp_dbg, wp_ite]
    exact ⟨fun _ => (freeDebugger_spec H w).mono (fun _ _ _ => trivial) (fun _ _ h => h.2.1),
      fun _ => trivial⟩
  exact hw.error h

theorem load_unload_faults {word : String} {argv : List String} {e : Halt} {w' : World σ}
    (found : lookup H.list word = some .load) (h : unload H w = .error e w') :
    handle H (.line (word :: name :: argv)) w = .error e w' := by
  rw [handle, exec_found H 2 found]
  by_cases hs : w.dbg.stat = .loaded ∨ w.dbg.stat = .running
  · simp only [unload, bind, EStateM.bind, dbg, if_pos hs] at h
    simp [Builtin.exec, cmdLoad, bind, EStateM.bind, dbg, hs, h]
  · simp only [unload, bind, EStateM.bind, dbg, if_neg hs] at h
    cases h

theorem load_tables {word : String} {argv : List String} (found : lookup H.list word = some .load)
    (ready : Ready w.dbg) (inv : Tables w.dbg) :
    Wp (handle H (.line (word :: name :: argv)))
      (fun _ w' => Segmented H w (.line (word :: name :: argv)) w' → Tables w'.dbg)
      (fun _ w' => Tables w'.dbg) w := by
  cases hu : unload H w with
  | error e w₁ =>
    have hran : handle H (.line (word :: name :: argv)) w = .error e w₁ :=
      load_unload_faults found hu
    unfold Wp
    rw [hran]
    dsimp only
    rw [unload_faults hu]
    exact inv
  | ok u w₁ =>
    obtain ⟨init, blank⟩ := unload_blank ready hu
    refine Wp.of_eq ((loadFile_tables init blank).mono ?_ (fun _ _ h => h)) (load_unloads found hu)
    intro _ w' h segmented
    exact h fun f hf => segmented word name argv w₁ f rfl found hu hf

/-- However one input ends, the tables are there unless it is in INIT. -/
theorem handle_tables (i : Input σ) (ready : Ready w.dbg) (inv : Tables w.dbg) :
    Wp (handle H i) (fun _ w' => Segmented H w i w' → Tables w'.dbg)
      (fun e w' => e = .crash → Tables w'.dbg) w := by
  -- `exit` and the end of the input both free the debugger and leave
  have freed : ∀ i, Wp (freeDebugger H >>= fun _ => throw (.exit 0))
      (fun (_ : Unit) w' => Segmented H w i w' → Tables w'.dbg)
      (fun e w' => e = .crash → Tables w'.dbg) w := by
    intro i
    rw [wp_bind]
    refine (freeDebugger_spec H w).mono ?_ (fun _ _ h _ => h.2.1 ▸ inv)
    intro _ _ _ he
    cases he
  have said : ∀ i fmt args, Wp (errmsg fmt args)
      (fun (_ : Unit) w' => Segmented H w i w' → Tables w'.dbg)
      (fun e w' => e = .crash → Tables w'.dbg) w := fun _ _ _ _ => inv
  cases i with
  | outside move => exact fun _ => inv
  | eof => exact freed _
  | line argv =>
    cases argv with
    | nil => exact fun _ => inv
    | cons word argv =>
      cases hf : lookup H.list word with
      | none =>
        exact (said _ "undefined command: '%s'." [.str word]).of_eq
          (by rw [handle, exec_unknown H 2 hf])
      | some b =>
        have hexec : handle H (.line (word :: argv)) w = b.exec H (exec H 2) (word :: argv) w := by
          rw [handle, exec_found H 2 hf]
        cases hq : quiet b with
        | true =>
          have along : Along _ w := quiet_along H hq (word :: argv) w
          unfold Along at along
          refine Wp.of_eq (along.mono ?_ ?_) hexec
          · exact fun _ _ h _ => moves_tables h inv
          · exact fun _ _ h _ => moves_tables h inv
        | false =>
          cases b with
          | load =>
            cases argv with
            | nil => exact (said _ "no executable file specified." []).of_eq hexec
            | cons name argv =>
              exact (load_tables hf ready inv).mono (fun _ _ h => h) (fun _ _ h _ => h)
          | «break» =>
            refine Wp.of_eq ((break_spec H (word :: argv) w).mono ?_ ?_) hexec
            · exact fun _ w' h _ => broke_tables h.2 inv
            · exact fun _ w' h _ => dbg_eq h.2 ▸ inv
          | delete =>
            refine Wp.of_eq ((delete_spec H (word :: argv) w).mono ?_ (fun _ _ h => h.elim)) hexec
            exact fun _ w' h _ => deleted_tables h.2 inv
          | exit => exact (freed _).of_eq hexec
          | _ => cases hq

theorem reached_tables {os : σ} (h : Reached (handle H) (Segmented H) (World.init os) w) :
    Tables w.dbg := by
  refine h.invariant (I := fun w => Tables w.dbg) (tables_init rfl) ?_
  intro w i w' before inv segmented ran
  exact (handle_tables i (reached_ready before) inv).ok ran segmented

end Load

/-- In every run in which each file that `load` accepts has a text segment, the handle, the
text segment and the text section are there at every prompt outside INIT, and a command that
crashes does so with all of them in place. -/
theorem tables_present {σ : Type} (H : Host σ) (os : σ) (w : World σ)
    (reached : Reached (handle H) (Segmented H) (World.init os) w) :
    Tables w.dbg ∧ ∀ i w', handle H i w = .error .crash w' → Tables w'.dbg := by
  have inv := reached_tables reached
  refine ⟨inv, ?_⟩
  intro i w' h
  exact (handle_tables i (reached_ready reached) inv).error h rfl

/-- A session that reaches RUNNING. -/
theorem tables_present_demo : ∃ w : World (Machine Demo.Hidden), w.dbg.stat = .running ∧
    w.dbg.eh ≠ none ∧ w.dbg.ptextHdr ≠ none ∧ w.dbg.stextHdr ≠ none := by
  obtain ⟨w, hw, hs⟩ := exists_run (handle (Demo.host Demo.static))
    (World.init (Demo.machine (Demo.program Demo.nops)))
    [.line ["load", "demo"], .line ["b", "0x401001"], .line ["start"], .line ["si"]]
    (fun w => w.dbg.stat = .running) (by decide +kernel)
  have running : w.dbg.stat = .running := of_decide_eq_true hs
  have segment : HasSegment Demo.static := by
    refine ⟨_, _, rfl, rfl, 0, by decide, ?_⟩
    exact segment_isText.mp (by decide)
  have segmented : Reached (handle (Demo.host Demo.static)) (Segmented (Demo.host Demo.static))
      (World.init (Demo.machine (Demo.program Demo.nops))) w := by
    refine hw.mono ?_
    intro _ _ _ _ word name argv w₁ f _ _ _ hf _
    exact Option.some.inj hf ▸ segment
  refine ⟨w, running, (tables_present _ _ w segmented).1 ?_⟩
  simp [running]

/-- The state a computation crashes in. -/
def crashed {σ α : Type} : EStateM.Result Halt σ α → Option σ
  | .error .crash s => some s
  | _ => none

theorem crashed_eq_some {σ α : Type} {r : EStateM.Result Halt σ α} {s : σ} :
    crashed r = some s ↔ r = .error .crash s := by
  cases r with
  | ok a s => simp [crashed]
  | error e s => cases e <;> simp [crashed]

/-- A program whose only segment is not executable. -/
def dataOnly : ElfFile := Demo.file 2 [Demo.segment PF_R 0x400000 0x2000] (Demo.text 0x401000 0x10)

/-- `load` accepts it for its text section, and `start` reads through the missing segment. -/
theorem start_without_segment : ∃ w w' : World (Machine Demo.Hidden),
    Reached (handle (Demo.host dataOnly)) (fun _ _ _ => True)
      (World.init (Demo.machine (Demo.program Demo.nops))) w ∧
    w.dbg.stat = .loaded ∧ w.dbg.ptext = none ∧
    handle (Demo.host dataOnly) (.line ["start"]) w = .error .crash w' ∧
    w'.dbg.stat = .loaded ∧ w'.dbg.ptextHdr = none := by
  obtain ⟨w, hw, hs⟩ := exists_run (handle (Demo.host dataOnly))
    (World.init (Demo.machine (Demo.program Demo.nops))) [.line ["load", "demo"]]
    (fun w => decide (w.dbg.stat = .loaded) && w.dbg.ptext.isNone &&
      (crashed (handle (Demo.host dataOnly) (.line ["start"]) w)).any
        fun (w' : World (Machine Demo.Hidden)) =>
          decide (w'.dbg.stat = .loaded) && w'.dbg.ptextHdr.isNone) (by decide +kernel)
  obtain ⟨hs, hcrash⟩ := Bool.and_eq_true_iff.mp hs
  obtain ⟨loaded, nothing⟩ := Bool.and_eq_true_iff.mp hs
  obtain ⟨w', hend, hw'⟩ := (Option.any_eq_true _ _).mp hcrash
  obtain ⟨hstat, hhdr⟩ := Bool.and_eq_true_iff.mp hw'
  exact ⟨w, w', hw, of_decide_eq_true loaded, Option.isNone_iff_eq_none.mp nothing,
    crashed_eq_some.mp hend, of_decide_eq_true hstat, Option.isNone_iff_eq_none.mp hhdr⟩

end UnixProgramming.Sdb.Proofs
