import UnixProgramming.Sdb.Machine
import UnixProgramming.Sdb.Proofs.Edits

namespace UnixProgramming.Sdb.Proofs
open Lib

/-- The section `s` covers the address `a`, going round the end of the address space. -/
def Shdr.Covers (s : Shdr) (a : Word) : Prop := offset s.addr a < s.size.toNat

/-- `stext` is an entry of the section table and covers the entry point. -/
def HasText (d : Debugger) : Prop :=
  ∃ eh stext, d.eh = some eh ∧ d.stextHdr = some stext ∧ Shdr.Covers stext eh.entrypoint

/-- `base` is zero unless the text segment is linked at zero. -/
def Biased (d : Debugger) : Prop :=
  d.base = 0 ∨ ∃ ptext, d.ptextHdr = some ptext ∧ ptext.vaddr = 0

/-- The record before any program. -/
structure Blank (d : Debugger) : Prop where
  bp : d.bp = []
  bpi : d.bpi = 0
  base : d.base = 0
  ldump : d.ldump = 0
  ldisasm : d.ldisasm = 0
  eh : d.eh = none
  ptext : d.ptext = none
  stext : d.stext = none

/-- What `stat` promises about the rest of the record. -/
structure SessionInv (d : Debugger) : Prop where
  init : d.stat = .init → Blank d
  loaded : d.stat = .loaded → d.base = 0 ∧ d.ldump = 0 ∧ HasText d
  running : d.stat = .running → HasText d ∧ Biased d

/-- The part of it that no name breaks. -/
structure Ready (d : Debugger) : Prop where
  init : d.stat = .init → Blank d
  text : d.stat ≠ .init → HasText d
  biased : d.stat = .running → Biased d

/-- The rest: what a name that runs over the end of `program` leaves in a record without a
child. -/
def Clean (d : Debugger) : Prop := d.stat = .loaded → d.base = 0 ∧ d.ldump = 0

theorem Ready.session {d : Debugger} (h : Ready d) (clean : Clean d) : SessionInv d where
  init := h.init
  loaded hs := ⟨(clean hs).1, (clean hs).2, h.text (by simp [hs])⟩
  running hs := ⟨h.text (by simp [hs]), h.biased hs⟩

/-- The signed comparisons of `cmd_load` put the entry point inside the section. -/
theorem isText_covers {s : Shdr} {entrypoint : Word} (h : s.isText entrypoint = true) :
    Shdr.Covers s entrypoint := by
  simp only [Shdr.isText, Bool.and_eq_true] at h
  obtain ⟨⟨_, hle⟩, hlt⟩ := h
  have hle' := BitVec.sle_iff_toInt_le.mp hle
  have hlt' := BitVec.slt_iff_toInt_lt.mp hlt
  have ha := BitVec.toInt_eq_toNat_cond s.addr
  have he := BitVec.toInt_eq_toNat_cond entrypoint
  have hs := BitVec.toInt_eq_toNat_cond (s.addr + s.size)
  have hn := BitVec.toNat_add s.addr s.size
  have ho := BitVec.toNat_sub entrypoint s.addr
  unfold Shdr.Covers offset
  have h1 := s.addr.isLt
  have h2 := s.size.isLt
  have h3 := entrypoint.isLt
  rw [hn] at hs
  rw [ho]
  split at ha <;> split at he <;> split at hs <;> omega

theorem stext_found {d : Debugger} {eh : ElfHandle} {s : Shdr} (fresh : d.stext = none)
    (h : (Debugger.findText { d with eh := some eh } eh).stextHdr = some s) :
    s.isText eh.entrypoint = true := by
  simp only [Debugger.findText, Debugger.stextHdr, fresh, Option.or_none] at h
  obtain ⟨eh', he, h⟩ := Option.bind_eq_some_iff.mp h
  cases he
  obtain ⟨t, ht, h⟩ := Option.bind_eq_some_iff.mp h
  obtain ⟨i, hi, h⟩ := Option.bind_eq_some_iff.mp h
  rw [ht] at hi
  rw [Option.getD_some] at hi
  obtain ⟨hlt, hp, _⟩ := List.findIdx?_eq_some_iff_getElem.mp hi
  rw [List.getElem?_eq_getElem hlt] at h
  cases h
  exact hp

theorem Blank.reset (d : Debugger) : Blank d.reset := ⟨rfl, rfl, rfl, rfl, rfl, rfl, rfl, rfl⟩

theorem Ready.of_blank {d : Debugger} (hs : d.stat = .init) (h : Blank d) : Ready d where
  init _ := h
  text hn := absurd hs hn
  biased := by simp [hs]

theorem Ready.of_loaded {d : Debugger} (hs : d.stat = .loaded) (ht : HasText d) : Ready d where
  init := by simp [hs]
  text _ := ht
  biased := by simp [hs]

theorem Ready.of_running {d : Debugger} (hs : d.stat = .running) (ht : HasText d)
    (hb : Biased d) : Ready d where
  init := by simp [hs]
  text _ := ht
  biased _ := hb

theorem Ready.stopped {d d' : Debugger} (h : Ready d) (hr : stopRecord d = some d') :
    Ready d' := by
  unfold stopRecord at hr
  cases hs : d.stat with
  | init => rw [hs] at hr; cases hr; exact h
  | loaded =>
    rw [hs] at hr
    cases hr
    exact .of_loaded rfl (h.text (by simp [hs]))
  | running =>
    rw [hs] at hr
    obtain ⟨ptext, _, he⟩ := Option.map_eq_some_iff.mp hr
    have ht := h.text (by simp [hs])
    subst he
    split
    · exact .of_loaded rfl ht
    · exact .of_loaded rfl ht

/-- The pid and the last status are not part of what `stat` promises. -/
theorem Ready.called {d : Debugger} (h : Ready d) (pid : Int) (status : BitVec 32) :
    Ready { d with pid := pid, status := status } where
  init := by
    intro hs
    obtain ⟨hbp, hbpi, hbase, hldump, hldisasm, heh, hptext, hstext⟩ := h.init hs
    exact ⟨hbp, hbpi, hbase, hldump, hldisasm, heh, hptext, hstext⟩
  text := h.text
  biased := h.biased

theorem cleared_blank {d : Debugger} (h : Ready d) :
    (cleared d).stat = .init ∧ Blank (cleared d) := by
  unfold cleared
  split
  · rename_i hs
    exact ⟨hs, h.init hs⟩
  · exact ⟨rfl, .reset d⟩

theorem move_ready {s s' : Snap} (h : Move s s') (inv : Ready s.1) : Ready s'.1 := by
  cases h with
  | waited d c res => exact inv.called d.pid (res.getD d.status)
  | killed => exact inv
  | reaped => exact inv
  | ended d d' c stop => exact inv.stopped stop
  | failed d c loaded => exact inv.called (-1) d.status
  | forked d c pid loaded => exact inv.called pid d.status
  | awaited d c pid res loaded child => exact inv.called d.pid (res.getD d.status)
  | started d c pid st ptext base bp loaded child stopped text bias moved =>
    refine .of_running rfl (inv.text (by simp [loaded])) ?_
    rcases bias with hz | hv
    · exact .inl hz
    · exact .inr ⟨ptext, text, hv⟩
  | dumped d c next running =>
    exact .of_running running (inv.text (by simp [running])) (inv.biased running)
  | swept d c next loaded =>
    exact ⟨fun hi => absurd hi loaded, inv.text, inv.biased⟩

theorem moves_ready {s s' : Snap} (h : Moves s s') (inv : Ready s.1) : Ready s'.1 := by
  induction h with
  | refl => exact inv
  | tail _ step ih => exact move_ready step ih

theorem move_clean {s s' : Snap} (h : Move s s') (clean : Clean s.1) : Clean s'.1 := by
  cases h with
  | ended d d' c stop =>
    unfold stopRecord at stop
    cases hs : d.stat with
    | init => rw [hs] at stop; cases stop; exact clean
    | loaded => rw [hs] at stop; cases stop; exact fun _ => ⟨rfl, rfl⟩
    | running =>
      rw [hs] at stop
      obtain ⟨ptext, _, he⟩ := Option.map_eq_some_iff.mp stop
      subst he
      split <;> exact fun _ => ⟨rfl, rfl⟩
  | started => exact fun hl => by cases hl
  | dumped d c next running =>
    intro hl
    have hl : d.stat = .loaded := hl
    rw [running] at hl
    cases hl
  | _ => exact clean

theorem moves_clean {s s' : Snap} (h : Moves s s') (clean : Clean s.1) : Clean s'.1 := by
  induction h with
  | refl => exact clean
  | tail _ step ih => exact move_clean step ih

theorem accepted_ready {d : Debugger} {argv : List String} {target : Word}
    (h : accepted d argv = some target) : d.stat ≠ .init := by
  intro hs
  unfold accepted at h
  split at h
  · rw [if_pos hs] at h
    cases h
  · cases h

theorem Ready.breaks {d : Debugger} (h : Ready d) (hs : d.stat ≠ .init)
    (bpi : BitVec 32) (bp : List BreakPt) : Ready { d with bpi := bpi, bp := bp } where
  init := fun hi => absurd hi hs
  text := h.text
  biased := h.biased

theorem removed_ready {d : Debugger} {argv : List String} {r : BreakPt × List BreakPt}
    (h : Ready d) (hr : removed d argv = some r) : d.stat ≠ .init := by
  intro hs
  obtain ⟨text, _, hu⟩ := Option.bind_eq_some_iff.mp hr
  rw [(h.init hs).bp] at hu
  cases hu

theorem load_ready {d d' : Debugger} {name : String} (hs : d.stat = .init) (h : Blank d)
    (hl : LoadResult d name d') : Ready d' := by
  cases hl with
  | absent =>
    obtain ⟨hbp, hbpi, hbase, hldump, hldisasm, _, hptext, hstext⟩ := h
    exact .of_blank hs ⟨hbp, hbpi, hbase, hldump, hldisasm, rfl, hptext, hstext⟩
  | rejected => exact .of_blank rfl (.reset d)
  | loaded eh stext found fits =>
    exact .of_loaded rfl ⟨eh, stext, rfl, found, isText_covers (stext_found h.stext found)⟩

theorem load_clean {d d' : Debugger} {name : String} (hs : d.stat = .init) (h : Blank d)
    (short : name.utf8ByteSize < MAX_PROG_NAME_LEN) (hl : LoadResult d name d') :
    Clean d' ∧ ((d'.stat = .loaded ∧ d'.bp = [] ∧ d'.bpi = 0) ∨ d'.stat = .init) := by
  cases hl with
  | absent => exact ⟨fun hl => absurd hl (by simp [hs]), .inr hs⟩
  | rejected => exact ⟨fun hl => absurd hl (by simp [Debugger.reset]), .inr rfl⟩
  | loaded eh stext found fits =>
    rw [copyName_short short]
    exact ⟨fun _ => ⟨h.base, h.ldump⟩, .inl ⟨rfl, h.bp, h.bpi⟩⟩

section
variable {σ : Type} {H : Host σ}

theorem round_ready {i : Input σ} {w w' : World σ} (h : Round H w i w')
    (inv : Ready w.dbg) : Ready w'.dbg := by
  cases h with
  | outside move w' same => exact dbg_eq same ▸ inv
  | unknown word argv w' found same => exact dbg_eq same ▸ inv
  | quiet word argv w' b found still moves => exact moves_ready moves inv
  | bare word w' found same => exact dbg_eq same ▸ inv
  | load word name argv w' found calls result =>
    obtain ⟨hs, hb⟩ := cleared_blank inv
    exact load_ready hs hb result
  | «break» word argv w' found calls broke =>
    obtain ⟨_, he⟩ | ⟨target, code, ha, he⟩ := broke.cases
    · exact he ▸ inv
    · rw [he]
      exact inv.breaks (accepted_ready ha) _ _
  | delete word argv w' found calls deleted =>
    obtain ⟨_, he⟩ | ⟨b, bp, hr, he⟩ := deleted.cases
    · exact he ▸ inv
    · rw [he]
      exact inv.breaks (removed_ready inv hr) _ _

theorem round_clean {i : Input σ} {w w' : World σ} (h : Round H w i w') (fits : NameFits H i)
    (inv : Ready w.dbg) (clean : Clean w.dbg) : Clean w'.dbg := by
  cases h with
  | outside move w' same => exact dbg_eq same ▸ clean
  | unknown word argv w' found same => exact dbg_eq same ▸ clean
  | quiet word argv w' b found still moves => exact moves_clean moves clean
  | bare word w' found same => exact dbg_eq same ▸ clean
  | load word name argv w' found calls result =>
    obtain ⟨hs, hb⟩ := cleared_blank inv
    exact (load_clean hs hb (fits found) result).1
  | «break» word argv w' found calls broke =>
    obtain ⟨bpi, bp, he⟩ := broke.edits
    rw [he]
    exact clean
  | delete word argv w' found calls deleted =>
    obtain ⟨bpi, bp, he⟩ := deleted.edits
    rw [he]
    exact clean

variable {P : World σ → Input σ → World σ → Prop} {os : σ} {w : World σ}

theorem reached_ready (h : Reached (handle H) P (World.init os) w) : Ready w.dbg := by
  have init : Ready ({} : Debugger) := .of_blank rfl ⟨rfl, rfl, rfl, rfl, rfl, rfl, rfl, rfl⟩
  refine h.invariant (I := fun w => Ready w.dbg) init ?_
  intro w i w' _ inv _ ran
  exact round_ready (handle_round H ran) inv

theorem reached_clean (fits : ∀ w i w', P w i w' → NameFits H i)
    (h : Reached (handle H) P (World.init os) w) : Clean w.dbg := by
  refine h.invariant (I := fun w => Clean w.dbg) (fun hl => by cases hl) ?_
  intro w i w' before clean kept ran
  exact round_clean (handle_round H ran) (fits w i w' kept) (reached_ready before) clean

/-- A program runs only behind a `ptext` that `start` has read. -/
def TextInv (d : Debugger) : Prop := d.stat = .running → d.ptextHdr ≠ none

theorem move_text {s s' : Snap} (hm : Move s s') (inv : TextInv s.1) : TextInv s'.1 := by
  cases hm with
  | ended d d' c stop => exact fun hr => absurd hr (stopRecord_idle stop)
  | started d c pid st ptext base bp loaded child stopped text bias moved =>
    have ht : d.ptextHdr ≠ none := by simp [text]
    exact fun _ => ht
  | _ => exact inv

theorem round_text {i : Input σ} {w w' : World σ} (h : Round H w i w') (inv : TextInv w.dbg) :
    TextInv w'.dbg := by
  cases h with
  | outside move w' same => exact dbg_eq same ▸ inv
  | unknown word argv w' found same => exact dbg_eq same ▸ inv
  | quiet word argv w' b found still moves =>
    have hm : ∀ s, Moves (snap w) s → TextInv s.1 := by
      intro s hs
      induction hs with
      | refl => exact inv
      | tail _ step ih => exact move_text step ih
    exact hm _ moves
  | bare word w' found same => exact dbg_eq same ▸ inv
  | load word name argv w' found calls result =>
    exact fun hr => absurd hr (result.idle (cleared_init _))
  | «break» word argv w' found calls broke =>
    obtain ⟨bpi, bp, he⟩ := broke.edits
    rw [he]
    exact inv
  | delete word argv w' found calls deleted =>
    obtain ⟨bpi, bp, he⟩ := deleted.edits
    rw [he]
    exact inv

theorem reached_text (h : Reached (handle H) P (World.init os) w) : TextInv w.dbg := by
  refine h.invariant (I := fun w => TextInv w.dbg) (fun hr => by cases hr) ?_
  intro w i w' _ inv _ ran
  exact round_text (handle_round H ran) inv

end

/-- While no `load` takes a name that runs over the end of `program`, the record is at every
prompt what `stat` says it is, and from every prompt a `load` with a file ends with a fresh
program or with none. -/
theorem session_invariant {σ : Type} (H : Host σ) (os : σ) (w : World σ)
    (reached : Reached (handle H) (fun _ i _ => NameFits H i) (World.init os) w) :
    SessionInv w.dbg ∧
      ∀ word name argv w', lookup H.list word = some .load →
        name.utf8ByteSize < MAX_PROG_NAME_LEN →
        handle H (.line (word :: name :: argv)) w = .ok () w' →
        (w'.dbg.stat = .loaded ∧ w'.dbg.bp = [] ∧ w'.dbg.bpi = 0) ∨ w'.dbg.stat = .init := by
  refine ⟨(reached_ready reached).session (reached_clean (fun _ _ _ fits => fits) reached), ?_⟩
  intro word name argv w' found short ran
  rw [handle, exec_found H 2 found] at ran
  obtain ⟨_, result⟩ := (load_spec H (word :: name :: argv) w).ok ran
  obtain ⟨hs, hb⟩ := cleared_blank (reached_ready reached)
  exact (load_clean hs hb short result).2

/-- A session that loads a program, sets a breakpoint, starts it and steps. -/
theorem session_invariant_demo :
    ∃ w : World (Machine Demo.Hidden), w.dbg.stat = .running ∧ SessionInv w.dbg := by
  obtain ⟨w, hw, hs⟩ := exists_reached (handle (Demo.host Demo.static))
    (fun _ i _ => decide (NameFits (Demo.host Demo.static) i))
    (World.init (Demo.machine (Demo.program Demo.nops)))
    [.line ["load", "demo"], .line ["b", "0x401001"], .line ["start"], .line ["si"]]
    (fun w => w.dbg.stat = .running) (by decide +kernel)
  have fits := hw.mono fun _ _ _ h => of_decide_eq_true h
  exact ⟨w, of_decide_eq_true hs, (session_invariant _ _ w fits).1⟩

/-- A name of 145 bytes: its copy ends in the lowest byte of `base`. -/
def overrunName : String := String.ofList (List.replicate 145 'a')

/-- A `load` under this name goes to LOADED, with a base, and with breakpoint ids that do not
begin at zero. -/
theorem overrun_loaded : ∃ w : World (Machine Demo.Hidden),
    Reached (handle (Demo.host Demo.static)) (fun _ _ _ => True)
      (World.init (Demo.machine (Demo.program Demo.nops))) w ∧
    w.dbg.stat = .loaded ∧ w.dbg.base = 0x61 ∧ w.dbg.bpi = 0x61616161 ∧ ¬SessionInv w.dbg := by
  obtain ⟨w, hw, hs⟩ := exists_run (handle (Demo.host Demo.static))
    (World.init (Demo.machine (Demo.program Demo.nops))) [.line ["load", overrunName]]
    (fun w => w.dbg.stat = .loaded && (w.dbg.base = 0x61 && w.dbg.bpi = 0x61616161))
    (by decide +kernel)
  obtain ⟨loaded, hs⟩ := Bool.and_eq_true_iff.mp hs
  obtain ⟨based, numbered⟩ := Bool.and_eq_true_iff.mp hs
  have loaded := of_decide_eq_true loaded
  have based := of_decide_eq_true based
  refine ⟨w, hw, loaded, based, of_decide_eq_true numbered, fun inv => ?_⟩
  have zero := (inv.loaded loaded).1
  rw [based] at zero
  cases zero

end UnixProgramming.Sdb.Proofs
