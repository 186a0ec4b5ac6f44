import UnixProgramming.Sdb.Proofs.Sections
import UnixProgramming.Sdb.Proofs.Session

namespace UnixProgramming.Sdb.Proofs
open Lib

/-- An executable section that contains the entry point. -/
def TextSection (entry : Word) (s : Shdr) : Prop :=
  s.type = SHT_PROGBITS ∧ s.flags &&& SHF_ALLOC ≠ 0 ∧ s.flags &&& SHF_EXECINSTR ≠ 0 ∧
    s.addr.toNat ≤ entry.toNat ∧ entry.toNat < s.addr.toNat + s.size.toNat

/-- A readable and executable segment that is mapped. -/
def TextSegment (p : Phdr) : Prop :=
  p.type = PT_LOAD ∧ p.flags &&& PF_R ≠ 0 ∧ p.flags &&& PF_X ≠ 0

/-- All of the section's bytes can be read. -/
def Whole (f : ElfFile) (s : Shdr) : Prop :=
  ∃ data, f.pread s.offset s.size = some data ∧ data.length = s.size.toNat

/-- The files the debugger can debug, as far as `load` is to know. -/
structure Loadable (f : ElfFile) (L : Layout) : Prop where
  clazz : f.ident = some 1 ∨ f.ident = some 2
  phnum : 0 < L.ehdr.phnum
  shnum : 0 < L.ehdr.shnum
  strtab : ∃ i, 0 < i ∧ i < L.ehdr.shnum ∧ (L.shdr i).type = SHT_STRTAB
  whole : ∀ i, 0 < i → i < L.ehdr.shnum → (L.shdr i).type = SHT_STRTAB → Whole f (L.shdr i)
  shstrndx : 0 < L.ehdr.shstrndx ∧ L.ehdr.shstrndx < L.ehdr.shnum ∧
    (L.shdr L.ehdr.shstrndx).type = SHT_STRTAB
  text : ∃ i, 0 < i ∧ i < L.ehdr.shnum ∧ TextSection L.ehdr.entry (L.shdr i)

/-- The record of a program that has been loaded from a file with the tables of `L`. -/
structure Debugs (L : Layout) (d : Debugger) : Prop where
  stat : d.stat = .loaded
  stext : ∃ i, IsLeast {j | 0 < j ∧ j < L.ehdr.shnum ∧ TextSection L.ehdr.entry (L.shdr j)} i ∧
    d.stext = some i ∧ d.stextHdr = some (L.shdr i)
  ptext : (∃ i, IsLeast {j | j < L.ehdr.phnum ∧ TextSegment (L.phdr j)} i ∧
      d.ptext = some i ∧ d.ptextHdr = some (L.phdr i)) ∨
    ((∀ j < L.ehdr.phnum, ¬TextSegment (L.phdr j)) ∧ d.ptext = none)

section Files
variable {A : Alloc} {f : ElfFile} {L : Layout} {e : ElfHandle} {d : Debugger} {i : Nat}

theorem segment_isText {p : Phdr} : p.isText = true ↔ TextSegment p := by
  simp [Phdr.isText, TextSegment, and_assoc]

/-- Below 2^63 the signed comparisons are those of the addresses. -/
theorem section_isText {s : Shdr} {entry : Word} (small : s.addr.toNat + s.size.toNat < 2 ^ 63) :
    s.isText entry = true ↔ TextSection entry s := by
  have hsum : (s.addr + s.size).toNat = s.addr.toNat + s.size.toNat := by
    rw [BitVec.toNat_add]
    omega
  have haddr : s.addr.toInt = s.addr.toNat := by
    rw [BitVec.toInt_eq_toNat_cond, if_pos (by omega)]
  have hend : (s.addr + s.size).toInt = (s.addr.toNat + s.size.toNat : Nat) := by
    rw [BitVec.toInt_eq_toNat_cond, if_pos (by omega), hsum]
  have hin : s.addr.toInt ≤ entry.toInt ∧ entry.toInt < (s.addr + s.size).toInt ↔
      s.addr.toNat ≤ entry.toNat ∧ entry.toNat < s.addr.toNat + s.size.toNat := by
    rw [haddr, hend, BitVec.toInt_eq_toNat_cond]
    have he := entry.isLt
    split <;> omega
  rw [← BitVec.sle_iff_toInt_le, ← BitVec.slt_iff_toInt_lt] at hin
  simp only [Shdr.isText, TextSection, Bool.and_eq_true, beq_iff_eq, bne_iff_ne, and_assoc, hin]

theorem elfOpen_foreign (ident : ¬(f.ident = some 1 ∨ f.ident = some 2)) :
    elfOpen A (some f) = .ok none := by
  simp only [elfOpen]
  split
  · rfl
  · rename_i clazz hi
    rw [hi] at ident
    have hc : ¬(clazz = 0x01 ∨ clazz = 0x02) := by simpa using ident
    rw [if_neg hc]
    split <;> rfl

/-- A null header in slot 0 is no string table and no text. -/
theorem slot_strtab (null : (A.shdr 0).type = 0) :
    (L.slot A i).type = SHT_STRTAB ↔ 0 < i ∧ (L.shdr i).type = SHT_STRTAB := by
  by_cases hz : i = 0
  · simp [Layout.slot, hz, null, SHT_STRTAB]
  · simp [Layout.slot, hz, Nat.pos_iff_ne_zero]

theorem slot_text {entry : Word} (null : (A.shdr 0).type = 0) :
    (L.slot A i).isText entry = true ↔ 0 < i ∧ (L.shdr i).isText entry = true := by
  by_cases hz : i = 0
  · simp [Layout.slot, hz, Shdr.isText, null, SHT_PROGBITS]
  · simp [Layout.slot, hz, Nat.pos_iff_ne_zero]

theorem held_iff (malloc : ∀ site, A.malloc site = true) {s : Shdr} :
    Held A f.pread (s, i) ↔ Whole f s := by
  simp [Held, Whole, malloc]

theorem stored_iff (malloc : ∀ site, A.malloc site = true) (null : (A.shdr 0).type = 0) :
    Stored A f L ↔ 0 < L.ehdr.phnum ∧ 0 < L.ehdr.shnum ∧
      (∃ i, 0 < i ∧ i < L.ehdr.shnum ∧ (L.shdr i).type = SHT_STRTAB) ∧
      ∀ i, 0 < i → i < L.ehdr.shnum → (L.shdr i).type = SHT_STRTAB → Whole f (L.shdr i) := by
  have hslot : ∀ i, 0 < i → L.slot A i = L.shdr i := by
    intro i hi
    rw [Layout.slot, if_neg (by omega)]
  constructor
  · intro h
    refine ⟨h.phnum, h.shnum, ?_, ?_⟩
    · obtain ⟨i, hi, ht⟩ := h.strtab
      obtain ⟨hpos, ht⟩ := (slot_strtab null).mp ht
      exact ⟨i, hpos, hi, ht⟩
    · intro i hpos hi ht
      have hheld := h.held i hi ((slot_strtab null).mpr ⟨hpos, ht⟩)
      rw [hslot i hpos] at hheld
      exact (held_iff malloc).mp hheld
  · intro h
    obtain ⟨hp, hs, ⟨i, hpos, hi, ht⟩, hwhole⟩ := h
    refine ⟨hp, hs, malloc _, malloc _, ?_, ⟨i, hi, (slot_strtab null).mpr ⟨hpos, ht⟩⟩⟩
    intro j hj htj
    obtain ⟨hposj, htj⟩ := (slot_strtab null).mp htj
    rw [hslot j hposj]
    exact (held_iff malloc).mpr (hwhole j hposj hj htj)

/-- The search for the section names. -/
theorem names_found (null : (A.shdr 0).type = 0) (h : Loaded A L e) :
    e.strtab.all (·.id ≠ e.shstrndx) = false ↔ 0 < L.ehdr.shstrndx ∧
      L.ehdr.shstrndx < L.ehdr.shnum ∧ (L.shdr L.ehdr.shstrndx).type = SHT_STRTAB := by
  have hmem : e.strtab.all (·.id ≠ e.shstrndx) = false ↔
      L.ehdr.shstrndx ∈ e.strtab.map StrTab.id := by
    rw [← h.shstrndx]
    simp [List.all_eq_false]
  rw [hmem, h.strtab, slot_strtab null]
  tauto

/-- The two searches of `cmd_load` on fresh pointers. -/
theorem findText_stext (h : Loaded A L e) (fresh : d.stext = none) :
    (Debugger.findText { d with eh := some e } e).stext = some i ↔
      IsLeast {j | j < L.ehdr.shnum ∧ (L.slot A j).isText L.ehdr.entry = true} i := by
  simp only [Debugger.findText, fresh, Option.or_none, h.shdr, Option.getD_some, h.entrypoint,
    Layout.table]
  exact find_range

theorem findText_ptext (h : Loaded A L e) (fresh : d.ptext = none) :
    (Debugger.findText { d with eh := some e } e).ptext =
      ((List.range L.ehdr.phnum).map L.phdr).findIdx? Phdr.isText := by
  simp only [Debugger.findText, fresh, Option.or_none, h.phdr, Option.getD_some]

theorem findText_none (h : Loaded A L e) (fresh : d.stext = none) :
    (Debugger.findText { d with eh := some e } e).stext = none ↔
      ∀ j < L.ehdr.shnum, (L.slot A j).isText L.ehdr.entry = false := by
  simp only [Debugger.findText, fresh, Option.or_none, h.shdr, Option.getD_some, h.entrypoint,
    Layout.table]
  exact find_range_none

theorem loadable_stored (malloc : ∀ site, A.malloc site = true) (null : (A.shdr 0).type = 0)
    (h : Loadable f L) : Stored A f L :=
  (stored_iff malloc null).mpr ⟨h.phnum, h.shnum, h.strtab, h.whole⟩

/-- The text sections in memory are those of the file. -/
theorem text_table (null : (A.shdr 0).type = 0)
    (small : ∀ i, 0 < i → i < L.ehdr.shnum →
      (L.shdr i).addr.toNat + (L.shdr i).size.toNat < 2 ^ 63) :
    {j | j < L.ehdr.shnum ∧ (L.slot A j).isText L.ehdr.entry = true} =
      {j | 0 < j ∧ j < L.ehdr.shnum ∧ TextSection L.ehdr.entry (L.shdr j)} := by
  ext j
  simp only [Set.mem_ofPred_eq, slot_text null]
  constructor
  · intro h
    obtain ⟨hj, hpos, ht⟩ := h
    exact ⟨hpos, hj, (section_isText (small j hpos hj)).mp ht⟩
  · intro h
    obtain ⟨hpos, hj, ht⟩ := h
    exact ⟨hj, hpos, (section_isText (small j hpos hj)).mpr ht⟩

/-- Of a file whose tables are in memory, `cmd_load` looks at the section names and at the text
section. -/
theorem loadable_iff (malloc : ∀ site, A.malloc site = true) (null : (A.shdr 0).type = 0)
    (small : ∀ i, 0 < i → i < L.ehdr.shnum →
      (L.shdr i).addr.toNat + (L.shdr i).size.toNat < 2 ^ 63)
    (ident : f.ident = some 1 ∨ f.ident = some 2) (stored : Stored A f L) (h : Loaded A L e)
    (fresh : d.stext = none) :
    Loadable f L ↔ e.strtab.all (·.id ≠ e.shstrndx) = false ∧
      (Debugger.findText { d with eh := some e } e).stext ≠ none := by
  rw [names_found null h]
  constructor
  · intro hl
    refine ⟨hl.shstrndx, fun hnone => ?_⟩
    have hno := (findText_none h fresh).mp hnone
    obtain ⟨i, hpos, hi, ht⟩ := hl.text
    have hyes := (slot_text (A := A) null).mpr ⟨hpos, (section_isText (small i hpos hi)).mpr ht⟩
    rw [hno i hi] at hyes
    cases hyes
  · intro hl
    obtain ⟨hnames, hsome⟩ := hl
    obtain ⟨i, hfound⟩ := Option.ne_none_iff_exists'.mp hsome
    have hleast := (findText_stext h fresh).mp hfound
    rw [text_table null small] at hleast
    obtain ⟨hp, hs, htab, hwhole⟩ := (stored_iff malloc null).mp stored
    exact ⟨ident, hp, hs, htab, hwhole, hnames, ⟨i, hleast.1⟩⟩

/-- Both pointers as `cmd_load` leaves them once it has found a text section. -/
theorem findText_debugs (null : (A.shdr 0).type = 0)
    (small : ∀ i, 0 < i → i < L.ehdr.shnum →
      (L.shdr i).addr.toNat + (L.shdr i).size.toNat < 2 ^ 63)
    (h : Loaded A L e) (noText : d.stext = none) (noSegment : d.ptext = none)
    (found : (Debugger.findText { d with eh := some e } e).stext = some i) (name : String) :
    Debugs L { (Debugger.findText { d with eh := some e } e).copyName name with
      stat := .loaded } := by
  have hleast := (findText_stext h noText).mp found
  rw [text_table null small] at hleast
  obtain ⟨hpos, hi, _⟩ := hleast.1
  refine ⟨rfl, ⟨i, hleast, found, ?_⟩, ?_⟩
  · have htab : (L.table A)[i]? = some (L.shdr i) := by
      rw [Layout.table, List.getElem?_map, List.getElem?_range hi]
      simp [Layout.slot, show i ≠ 0 by omega]
    change (Debugger.findText { d with eh := some e } e).stextHdr = some (L.shdr i)
    simp only [Debugger.stextHdr, found]
    simp [Debugger.findText, h.shdr, htab]
  · have hset : {j | j < L.ehdr.phnum ∧ TextSegment (L.phdr j)} =
        {j | j < L.ehdr.phnum ∧ (L.phdr j).isText = true} := by
      ext j
      simp only [Set.mem_ofPred_eq, segment_isText]
    have hptext := findText_ptext h noSegment
    cases hp : ((List.range L.ehdr.phnum).map L.phdr).findIdx? Phdr.isText with
    | none =>
      refine .inr ⟨?_, hptext.trans hp⟩
      intro j hj ht
      have hnone := find_range_none.mp hp j hj
      rw [segment_isText.mpr ht] at hnone
      cases hnone
    | some k =>
      have hk := find_range.mp hp
      have hset' := hset ▸ hk
      refine .inl ⟨k, hset', hptext.trans hp, ?_⟩
      have htab : ((List.range L.ehdr.phnum).map L.phdr)[k]? = some (L.phdr k) := by
        rw [List.getElem?_map, List.getElem?_range hk.1.1]
        rfl
      change (Debugger.findText { d with eh := some e } e).ptextHdr = some (L.phdr k)
      simp only [Debugger.ptextHdr, hptext.trans hp]
      simp [Debugger.findText, h.phdr, htab]

end Files

section Load
variable {σ : Type} {H : Host σ} {L : Layout} {w w₁ : World σ} {word name : String}
  {argv : List String}

/-- How `load` ends when all is well. -/
def LoadsRight (o : Option ElfFile) (L : Layout) (d : Debugger) : Prop :=
  ((∃ f, o = some f ∧ Loadable f L) → Debugs L d) ∧
    (¬(∃ f, o = some f ∧ Loadable f L) → d.stat = .init)

theorem loadFile_right (H : Host σ) (name : String) (w : World σ) (init : w.dbg.stat = .init)
    (blank : Blank w.dbg)
    (malloc : ∀ site, (H.alloc w.os).malloc site = true)
    (null : ((H.alloc w.os).shdr 0).type = 0)
    (readable : ∀ f, H.elf name w.os = some f → f.ident = some 1 ∨ f.ident = some 2 → Readable f L)
    (small : ∀ i, 0 < i → i < L.ehdr.shnum →
      (L.shdr i).addr.toNat + (L.shdr i).size.toNat < 2 ^ 63) :
    Wp (loadFile H name)
      (fun _ w' => LoadsRight (H.elf name w.os) L w'.dbg ∧
        ((∃ f, H.elf name w.os = some f ∧ Loadable f L) → name.utf8ByteSize < ehOffset))
      (fun _ _ => (∃ f, H.elf name w.os = some f ∧ Loadable f L) ∧
        ehOffset ≤ name.utf8ByteSize) w := by
  simp only [loadFile, wp_bind, wp_ask]
  -- every way to reject a file leaves INIT
  have rejects : ∀ d : Debugger, d.stat = .init → ¬(∃ f, H.elf name w.os = some f ∧ Loadable f L) →
      LoadsRight (H.elf name w.os) L d ∧
        ((∃ f, H.elf name w.os = some f ∧ Loadable f L) → name.utf8ByteSize < ehOffset) :=
    fun d hd hn => ⟨⟨fun h => absurd h hn, fun _ => hd⟩, fun h => absurd h hn⟩
  cases ho : H.elf name w.os with
  | none =>
    rw [ho] at rejects
    exact rejects { w.dbg with eh := none } init (by simp)
  | some f =>
    have loads : (∃ f', some f = some f' ∧ Loadable f' L) ↔ Loadable f L := by simp
    rw [ho, loads] at rejects
    simp only [loads]
    by_cases ident : f.ident = some 1 ∨ f.ident = some 2
    · have hread := readable f ho ident
      obtain ⟨clazz, known, hopen⟩ := elfOpen_reads (A := H.alloc w.os) hread ident (malloc .handle)
      rw [hopen]
      simp only [wp_bind, wp_setDbg]
      by_cases hstored : Stored (H.alloc w.os) f L
      · obtain ⟨ts, _, hall, hloaded⟩ := elfLoadAll_accepts hread known hstored
        rw [hall]
        simp only [wp_bind, wp_setDbg, wp_ite, resetDebugger, wp_dbg]
        generalize loadSymbols (H.alloc w.os) _ = e at hloaded
        have hiff := loadable_iff malloc null small ident hstored hloaded blank.stext
        refine ⟨fun hnames => ?_, fun hnames => ⟨fun hnone => ?_, fun hsome => ?_⟩⟩
        · refine rejects _ rfl fun hl => ?_
          rw [(hiff.mp hl).1] at hnames
          cases hnames
        · exact rejects _ rfl fun hl => (hiff.mp hl).2 (Option.isNone_iff_eq_none.mp hnone)
        · rw [Option.isNone_iff_eq_none] at hsome
          obtain ⟨i, hfound⟩ := Option.ne_none_iff_exists'.mp hsome
          have hdebugs := findText_debugs null small hloaded blank.stext blank.ptext hfound name
          obtain ⟨j, _, _, hhdr⟩ := hdebugs.stext
          have hl : Loadable f L := hiff.mpr ⟨by simpa using hnames, hsome⟩
          refine ⟨fun hlong => ⟨hl, hlong⟩, fun hfits => ?_⟩
          have hhdr' : (Debugger.findText { w.dbg with eh := some e } e).stextHdr =
              some (L.shdr j) := hhdr
          rw [hhdr', wp_deref_some, wp_errmsg]
          refine ⟨⟨fun _ => hdebugs, fun hn => absurd (loads.mpr hl) hn⟩, fun _ => ?_⟩
          exact Nat.lt_of_not_le hfits
      · rw [elfLoadAll_refuses hread known hstored]
        simp only [wp_bind, wp_setDbg, freeDebugger, stopDebugger, wp_dbg, wp_ite, init]
        refine ⟨fun _ => ?_, fun h => absurd trivial h⟩
        exact rejects _ rfl fun hl => hstored (loadable_stored malloc null hl)
    · rw [elfOpen_foreign ident]
      exact rejects { w.dbg with eh := none } init fun hl => ident hl.clazz

/-- The first half of `cmd_load`: the previous program goes. -/
def unload (H : Host σ) : DbgM σ Unit := do
  let d ← dbg
  if d.stat = .loaded ∨ d.stat = .running then
    freeDebugger H

theorem load_unloads (found : lookup H.list word = some .load) (gone : unload H w = .ok () w₁) :
    handle H (.line (word :: name :: argv)) w = loadFile H name w₁ := by
  rw [handle, exec_found H 2 found]
  have hload : Builtin.exec H (exec H 2) (word :: name :: argv) .load w =
      (unload H >>= fun _ => loadFile H name) w := by
    by_cases hs : w.dbg.stat = .loaded ∨ w.dbg.stat = .running
    · simp [Builtin.exec, cmdLoad, unload, bind, EStateM.bind, dbg, hs]
    · simp [Builtin.exec, cmdLoad, unload, bind, EStateM.bind, dbg, hs]
      rfl
  rw [hload]
  simp only [bind, EStateM.bind, gone]

theorem unload_blank (inv : Ready w.dbg) (gone : unload H w = .ok () w₁) :
    w₁.dbg.stat = .init ∧ Blank w₁.dbg := by
  have h : Wp (unload H) (fun _ w' => w'.dbg.stat = .init ∧ Blank w'.dbg) (fun _ _ => True) w := by
    simp only [unload, wp_bind, wp_dbg, wp_ite]
    refine ⟨fun _ => ?_, fun hs => ?_⟩
    · refine (freeDebugger_spec H w).mono ?_ (fun _ _ _ => trivial)
      intro _ w' hw
      obtain ⟨⟨d, _, hd⟩, _⟩ := hw
      rw [hd]
      exact ⟨rfl, .reset d⟩
    · have hi : w.dbg.stat = .init := by
        cases h : w.dbg.stat <;> simp_all
      exact ⟨hi, inv.init hi⟩
  exact h.ok gone

end Load

/-- Once the previous program is gone, `load` ends as it should, on the lowest text section and
segment of a file it can debug and in INIT for any other, exactly when the copy of the name of a
file it accepts stays in front of `eh`. -/
theorem load_accepts_iff {σ : Type} (H : Host σ) (os : σ) (w : World σ)
    (reached : Reached (handle H) (fun _ _ _ => True) (World.init os) w) (word name : String)
    (argv : List String) (found : lookup H.list word = some .load) (w₁ : World σ)
    (gone : unload H w = .ok () w₁) (malloc : ∀ site, (H.alloc w₁.os).malloc site = true)
    (null : (H.alloc w₁.os).shdr 0 = ⟨0, 0, 0, 0, 0, 0, 0, 0, 0, 0⟩) (L : Layout)
    (readable : ∀ f, H.elf name w₁.os = some f → f.ident = some 1 ∨ f.ident = some 2 →
      Readable f L)
    (small : ∀ i, 0 < i → i < L.ehdr.shnum →
      (L.shdr i).addr.toNat + (L.shdr i).size.toNat < 2 ^ 63) :
    (∃ w', handle H (.line (word :: name :: argv)) w = .ok () w' ∧
        LoadsRight (H.elf name w₁.os) L w'.dbg) ↔
      ((∃ f, H.elf name w₁.os = some f ∧ Loadable f L) → name.utf8ByteSize < ehOffset) := by
  obtain ⟨init, blank⟩ := unload_blank (reached_ready reached) gone
  have right := loadFile_right H name w₁ init blank malloc (by rw [null]) readable small
  rw [load_unloads found gone]
  constructor
  · intro h
    obtain ⟨w', hran, _⟩ := h
    exact (right.ok hran).2
  · intro fits
    obtain ⟨_, w', hran, hright, _⟩ := right.returns
      fun _ _ h => Nat.not_lt.mpr h.2 (fits h.1)
    exact ⟨w', hran, hright⟩

section Demo

/-- The header tables of `Demo.static`. -/
def staticLayout : Layout where
  ehdr := ⟨2, 1, 3, 2, 0x401000⟩
  phdr i := [Demo.segment (PF_R ||| PF_X) 0x400000 0x2000].getD i ⟨0, 0, 0, 0, 0, 0, 0, 0⟩
  shdr i := if i = 1 then Demo.text 0x401000 0x10 else ⟨0, SHT_STRTAB, 0, 0, 0, 1, 0, 0, 1, 0⟩

theorem static_readable : Readable Demo.static staticLayout where
  ehdr := rfl
  phdr _ := rfl
  scns := by decide
  shdr := by
    intro s hs
    simp only [Demo.static, Demo.file, List.mem_cons, List.not_mem_nil, or_false] at hs
    rcases hs with he | he
    · subst he
      rfl
    · subst he
      rfl

theorem static_loadable : Loadable Demo.static staticLayout where
  clazz := .inr rfl
  phnum := by decide
  shnum := by decide
  strtab := ⟨2, by decide⟩
  whole := fun i _ _ _ => ⟨_, rfl, List.length_replicate⟩
  shstrndx := by decide
  text := ⟨1, by decide, by decide, by decide, by decide, by decide, by decide, by decide⟩

theorem static_small (i : Nat) : 0 < i → i < staticLayout.ehdr.shnum →
    (staticLayout.shdr i).addr.toNat + (staticLayout.shdr i).size.toNat < 2 ^ 63 := by
  intro _ _
  unfold staticLayout
  dsimp only
  split <;> decide

end Demo

/-- A first program, loaded under a short name. -/
theorem load_accepts_demo : ∃ w', handle (Demo.host Demo.static) (.line ["load", "demo"])
    (World.init (Demo.machine (Demo.program Demo.nops))) = .ok () w' ∧ w'.dbg.stat = .loaded := by
  have short : "demo".utf8ByteSize < ehOffset := by decide
  obtain ⟨w', hran, hright⟩ := (load_accepts_iff (Demo.host Demo.static) _ _ .init "load" "demo" []
    (by decide) _ rfl (fun _ => rfl) rfl staticLayout
    (fun f hf _ => Option.some.inj hf ▸ static_readable) static_small).mpr (fun _ => short)
  exact ⟨w', hran, (hright.1 ⟨_, rfl, static_loadable⟩).stat⟩

/-- The copy of a long name runs over `eh`. -/
theorem static_overflows {name : String} (long : ehOffset ≤ name.utf8ByteSize) :
    ∃ w', handle (Demo.host Demo.static) (.line ["load", name])
      (World.init (Demo.machine (Demo.program Demo.nops))) = .error .crash w' := by
  have init : (World.init (Demo.machine (Demo.program Demo.nops))).dbg.stat = .init := rfl
  have gone : unload (Demo.host Demo.static) (World.init (Demo.machine (Demo.program Demo.nops))) =
    .ok () (World.init (Demo.machine (Demo.program Demo.nops))) := rfl
  have right := loadFile_right (Demo.host Demo.static) name
    (World.init (Demo.machine (Demo.program Demo.nops))) init
    ⟨rfl, rfl, rfl, rfl, rfl, rfl, rfl, rfl⟩ (fun _ => rfl) rfl
    (fun f hf _ => Option.some.inj hf ▸ static_readable) static_small
  have crash := loadFile_spec (Demo.host Demo.static) name
    (World.init (Demo.machine (Demo.program Demo.nops))) init
  have fails : Wp (loadFile (Demo.host Demo.static) name) (fun _ _ => False)
      (fun e _ => e = .crash) (World.init (Demo.machine (Demo.program Demo.nops))) := by
    refine (right.and crash).mono ?_ (fun _ _ h => h.2.1)
    intro _ _ h
    have fits := h.1.2 ⟨Demo.static, rfl, static_loadable⟩
    omega
  obtain ⟨e, w', hran, he⟩ := fails.fails
  subst he
  rw [load_unloads (by decide) gone]
  exact ⟨w', hran⟩

/-- A path of 200 characters, which `readline` returns whole. -/
def longName : String := String.ofList (List.replicate 200 'a')

/-- A file the debugger can debug, under a name that does not fit in front of `eh`. -/
theorem long_name_crashes : Readable Demo.static staticLayout ∧ Loadable Demo.static staticLayout ∧
    ∃ w', handle (Demo.host Demo.static) (.line ["load", longName])
      (World.init (Demo.machine (Demo.program Demo.nops))) = .error .crash w' :=
  ⟨static_readable, static_loadable, static_overflows (by decide +kernel)⟩

end UnixProgramming.Sdb.Proofs
