import UnixProgramming.Sdb.Proofs.Lifetime

namespace UnixProgramming.Sdb.Proofs
open Lib

def ET_EXEC : Nat := 2
def ET_DYN : Nat := 3

/-- How the kernel maps the program: `low` is the lowest address of a PT_LOAD segment,
`bias` is zero for ET_EXEC and any multiple of the page size for an ET_DYN file linked at
zero, and the first line of `/proc/pid/maps` starts with their sum. -/
structure Mapped (eh : ElfHandle) (low bias : Word) (maps : String) : Prop where
  attained : ∃ p ∈ eh.phdr.getD [], p.type = PT_LOAD ∧ p.vaddr = low
  lowest : ∀ p ∈ eh.phdr.getD [], p.type = PT_LOAD → low ≤ p.vaddr
  choice : ∃ h, eh.elf.ehdr = some h ∧ ((h.type = ET_EXEC ∧ bias = 0) ∨
    (h.type = ET_DYN ∧ low = 0 ∧ 4096 ∣ bias.toNat))
  line : ∃ ds rest, maps.toList = ds ++ '-' :: rest ∧ ds ≠ [] ∧
    (∀ c ∈ ds, isDigitIn 16 c = true) ∧ digitsValue 16 ds = (bias + low).toNat

section Text
variable {d d' : Debugger} {p : Phdr}

/-- `ptext`, if it is set, is a segment the loop of `cmd_load` accepts. -/
def SegmentInv (d : Debugger) : Prop := ∀ p, d.ptextHdr = some p → p.isText = true

theorem ptext_found {eh : ElfHandle} (fresh : d.ptext = none)
    (h : (Debugger.findText { d with eh := some eh } eh).ptextHdr = some p) :
    p.isText = true := by
  simp only [Debugger.findText, Debugger.ptextHdr, fresh, Option.or_none] at h
  obtain ⟨eh', he, h⟩ := Option.bind_eq_some_iff.mp h
  cases he
  obtain ⟨t, ht, h⟩ := Option.bind_eq_some_iff.mp h
  obtain ⟨i, hi, h⟩ := Option.bind_eq_some_iff.mp h
  rw [ht] at hi
  rw [Option.getD_some] at hi
  obtain ⟨hlt, hp, _⟩ := List.findIdx?_eq_some_iff_getElem.mp hi
  rw [List.getElem?_eq_getElem hlt] at h
  cases h
  exact hp

/-- `ptext` points into the segments of `eh`. -/
theorem ptext_mem {eh : ElfHandle} (he : d.eh = some eh) (h : d.ptextHdr = some p) :
    p ∈ eh.phdr.getD [] := by
  unfold Debugger.ptextHdr at h
  obtain ⟨eh', he', h⟩ := Option.bind_eq_some_iff.mp h
  rw [he] at he'
  cases he'
  obtain ⟨t, ht, h⟩ := Option.bind_eq_some_iff.mp h
  obtain ⟨i, _, h⟩ := Option.bind_eq_some_iff.mp h
  rw [ht]
  exact List.mem_of_getElem? h

theorem SameFile.segment (h : SameFile d d') (inv : SegmentInv d) : SegmentInv d' := by
  intro p hp
  rw [h.ptextHdr] at hp
  exact inv p hp

theorem load_segment {name : String} (hb : Blank d) (h : LoadResult d name d') :
    SegmentInv d' := by
  cases h with
  | absent =>
    intro p hp
    cases hp
  | rejected =>
    intro p hp
    cases hp
  | loaded eh stext found fits => exact fun p hp => ptext_found hb.ptext hp

end Text

section Rounds
variable {σ : Type} {H : Host σ}

theorem round_segment {i : Input σ} {w w' : World σ} (h : Round H w i w')
    (ready : Ready w.dbg) (inv : SegmentInv w.dbg) : SegmentInv w'.dbg := by
  rcases h.file with same | ⟨word, name, argv, _, _, result⟩
  · exact same.segment inv
  · exact load_segment (cleared_blank ready).2 result

theorem reached_segment {P : World σ → Input σ → World σ → Prop} {os : σ} {w : World σ}
    (h : Reached (handle H) P (World.init os) w) : SegmentInv w.dbg := by
  refine h.invariant (I := fun w => SegmentInv w.dbg) (fun p hp => by cases hp) ?_
  intro w i w' before inv _ ran
  exact round_segment (handle_round H ran) (reached_ready before) inv

end Rounds

section Bias
variable {η : Type} {eh : ElfHandle} {low bias : Word} {maps : String} {ptext : Phdr}

theorem Mapped.begin (h : Mapped eh low bias maps) {σ : Type} (B : Host σ) (os : σ) :
    beginOf B os maps = bias + low := by
  obtain ⟨ds, rest, hmaps, some_, hex, value⟩ := h.line
  have hlt := (bias + low).isLt
  unfold beginOf
  rw [hmaps, scanHex_digits some_ hex (by omega)]
  dsimp only
  rw [value, BitVec.ofNat_toNat, BitVec.setWidth_eq]

/-- What `cmd_start` takes for the bias is the bias, provided that the text segment is
linked at zero or there is none to add. -/
theorem Mapped.base_iff (h : Mapped eh low bias maps) (mem : ptext ∈ eh.phdr.getD [])
    (text : ptext.isText = true) :
    baseOf ptext (bias + low) = bias ↔ ptext.vaddr = 0 ∨ bias = 0 := by
  unfold baseOf
  by_cases hv : ptext.vaddr = 0
  · have hload : ptext.type = PT_LOAD := by
      simp only [Phdr.isText, Bool.and_eq_true, beq_iff_eq] at text
      exact text.1.1
    have hle := h.lowest ptext mem hload
    rw [hv] at hle
    have hlow : low = 0 := by
      apply BitVec.eq_of_toNat_eq
      have := BitVec.le_def.mp hle
      simpa using this
    simp [hv, hlow]
  · rw [if_neg hv]
    constructor
    · exact fun he => .inr he.symm
    · intro h
      rcases h with h | h
      · exact absurd h hv
      · exact h.symm

/-- The bounds `break` compares with admit every address of a section of `size` bytes at
`addr` exactly when the section ends before the address space does. -/
theorem bounds_iff {addr size : Word} (some_ : 0 < size.toNat) :
    (∀ x, offset addr x < size.toNat → addr ≤ x ∧ x ≤ addr + size) ↔
      addr.toNat + size.toNat < 2 ^ 64 := by
  have ha := addr.isLt
  have hs := size.isLt
  have hn := BitVec.toNat_add addr size
  constructor
  · intro h
    obtain ⟨_, hend⟩ := h addr (by rw [offset_self]; exact some_)
    have hend := BitVec.le_def.mp hend
    omega
  · intro h x hx
    have hx' : offset addr x = (2 ^ 64 - addr.toNat + x.toNat) % 2 ^ 64 := BitVec.toNat_sub x addr
    have hl := x.isLt
    constructor
    · apply BitVec.le_def.mpr
      omega
    · apply BitVec.le_def.mpr
      omega

end Bias

section Break
variable {η : Type} {T : Isa η} {fuel : Nat} {B : Host (Machine η)} {w : World (Machine η)}
  {c : Child η}

/-- `break` in RUNNING, with an address inside its bounds that has no breakpoint yet. -/
theorem break_live (live : Live w c) (running : w.dbg.stat = .running) {stext : Shdr}
    (section_ : w.dbg.stextHdr = some stext) {word text : String} {argv : List String}
    (above : w.dbg.textBegin stext ≤ strtoll text) (below : strtoll text ≤ w.dbg.textEnd stext)
    (fresh : strtoll text ∉ w.dbg.bp.map (·.addr)) :
    Wp (cmdBreak (machineHost T fuel B) (word :: text :: argv))
      (fun _ w' => w'.os = w.os.put { c with mem := arm c.mem (strtoll text) } ∧
        w'.dbg = { w.dbg with
          bpi := w.dbg.bpi + 1
          bp := w.dbg.bp ++ [⟨w.dbg.bpi, strtoll text, load 8 c.mem (strtoll text)⟩] })
      (fun _ _ => False) w := by
  have range : ¬(strtoll text < w.dbg.textBegin stext ∨ w.dbg.textEnd stext < strtoll text) := by
    rw [not_or, BitVec.not_lt, BitVec.not_lt]
    exact ⟨above, below⟩
  have free : w.dbg.bpFindByAddr (strtoll text) = none := bpFind_none.mpr fresh
  unfold cmdBreak
  simp only [List.getElem?_cons_succ, List.getElem?_cons_zero, wp_bind, wp_dbg, wp_ite, section_,
    wp_deref_some, if_neg range]
  refine ⟨fun hs => absurd running hs.2, fun _ => ⟨fun hf => by simp [free] at hf, fun _ => ?_⟩⟩
  rw [wp_setDbg, wp_ite]
  refine ⟨fun _ => ?_, fun hn => absurd running hn⟩
  have live' : Live { w with dbg := { w.dbg with bpi := w.dbg.bpi + 1 } } c := ⟨live.proc, live.pid⟩
  rw [wp_bind, wp_bpPatch_live live', wp_setDbg]
  exact ⟨rfl, rfl⟩

/-- Such a `break` sets and arms its breakpoint. -/
theorem break_takes (live : Live w c) (running : w.dbg.stat = .running) {stext : Shdr}
    (section_ : w.dbg.stextHdr = some stext) {word text : String} {argv : List String}
    (found : lookup B.list word = some .break) (above : w.dbg.textBegin stext ≤ strtoll text)
    (below : strtoll text ≤ w.dbg.textEnd stext) (fresh : strtoll text ∉ w.dbg.bp.map (·.addr)) :
    ∃ w' c', handle (machineHost T fuel B) (.line (word :: text :: argv)) w = .ok () w' ∧
      Live w' c' ∧ strtoll text ∈ w'.dbg.bp.map (·.addr) ∧ c'.mem (strtoll text) = 0xcc := by
  have hran : Wp (cmdBreak (machineHost T fuel B) (word :: text :: argv)) _ _ w :=
    break_live live running section_ above below fresh
  obtain ⟨_, w', hran, hos, hd⟩ := hran.returns fun _ _ hf => hf
  refine ⟨w', _, ?_, ⟨by rw [hos]; rfl, ?_⟩, ?_, ?_⟩
  · rw [handle, exec_found (machineHost T fuel B) 2 found]
    exact hran
  · rw [hd, hos]
    exact live.pid
  · rw [hd]
    simp
  · dsimp only
    rw [arm_eq, overlay_mem (List.mem_singleton.mpr rfl)]

end Break

/-- The program runs relocated by `bias`: `base` is the bias, each breakpoint set before is
armed at its run address, and `break` takes every run address of the text section. -/
structure Relocated {η : Type} (H : Host (Machine η)) (w w' : World (Machine η)) (stext : Shdr)
    (bias : Word) : Prop where
  base : w'.dbg.base = bias
  moved : w'.dbg.bp.map (·.addr) = w.dbg.bp.map (·.addr + bias)
  armed : ∃ c, Live w' c ∧ ∀ b ∈ w.dbg.bp, c.mem (b.addr + bias) = 0xcc
  bounds : ∀ x, offset (bias + stext.addr) x < stext.size.toNat →
    w'.dbg.textBegin stext ≤ x ∧ x ≤ w'.dbg.textEnd stext
  taken : ∀ word text argv, lookup H.list word = some .break →
    offset (bias + stext.addr) (strtoll text) < stext.size.toNat →
    strtoll text ∉ w'.dbg.bp.map (·.addr) →
    ∃ w'' c, handle H (.line (word :: text :: argv)) w' = .ok () w'' ∧ Live w'' c ∧
      strtoll text ∈ w''.dbg.bp.map (·.addr) ∧ c.mem (strtoll text) = 0xcc

/-- With the breakpoints armed at `base`, what is left is that `base` is the bias and that the
bounds of `break` admit the text section. -/
theorem relocated_iff {η : Type} {T : Isa η} {fuel : Nat} {B : Host (Machine η)}
    {w w' : World (Machine η)} {c : Child η} {stext : Shdr} {base bias : Word}
    (live : Live w' c) (running : w'.dbg.stat = .running) (hbase : w'.dbg.base = base)
    (hsection : w'.dbg.stextHdr = some stext)
    (moved : w'.dbg.bp.map (·.addr) = w.dbg.bp.map (·.addr + base))
    (armed : ∀ b ∈ w.dbg.bp, c.mem (b.addr + base) = 0xcc) :
    Relocated (machineHost T fuel B) w w' stext bias ↔
      base = bias ∧ ∀ x, offset (bias + stext.addr) x < stext.size.toNat →
        bias + stext.addr ≤ x ∧ x ≤ bias + stext.addr + stext.size := by
  constructor
  · intro h
    have hb : base = bias := hbase.symm.trans h.base
    refine ⟨hb, ?_⟩
    intro x hx
    have hbounds := h.bounds x hx
    unfold Debugger.textBegin Debugger.textEnd at hbounds
    rwa [hbase, hb] at hbounds
  · intro h
    obtain ⟨hb, hbounds⟩ := h
    have hbounds' : ∀ x, offset (bias + stext.addr) x < stext.size.toNat →
        w'.dbg.textBegin stext ≤ x ∧ x ≤ w'.dbg.textEnd stext := by
      unfold Debugger.textBegin Debugger.textEnd
      rw [hbase, hb]
      exact hbounds
    refine ⟨hbase.trans hb, hb ▸ moved, ⟨c, live, hb ▸ armed⟩, hbounds', ?_⟩
    intro word text argv found hx fresh
    obtain ⟨above, below⟩ := hbounds' _ hx
    exact break_takes live running hsection found above below fresh

/-- After `load` of any file, `start` relocates the program as the kernel did exactly when
the text segment is linked at zero or the bias is zero, and the text section ends before
the address space does. -/
theorem start_relocates_iff {η : Type} (T : Isa η) (fuel : Nat) (B : Host (Machine η))
    (m : Machine η) (w : World (Machine η))
    (reached : Reached (handle (machineHost T fuel B)) (fun _ _ _ => True) (World.init m) w)
    (loaded : w.dbg.stat = .loaded) (eh : ElfHandle) (file : w.dbg.eh = some eh) (ptext : Phdr)
    (segment : w.dbg.ptextHdr = some ptext) (stext : Shdr)
    (section_ : w.dbg.stextHdr = some stext) (pid : Nat) (regs : Regs) (hidden : η)
    (image : Memory 64) (spawn : w.os.spawns w.os.forks = some (pid, .ready regs hidden image))
    (low bias : Word) (mapped : Mapped eh low bias (T.maps hidden)) (word : String)
    (argv : List String) (found : lookup B.list word = some .start) :
    ∃ w', handle (machineHost T fuel B) (.line (word :: argv)) w = .ok () w' ∧
      (Relocated (machineHost T fuel B) w w' stext bias ↔
        (ptext.vaddr = 0 ∨ bias = 0) ∧
          (bias + stext.addr).toNat + stext.size.toNat < 2 ^ 64) := by
  have hstart : Wp (cmdStart (machineHost T fuel B) (word :: argv)) _ _ w :=
    start_loaded loaded (word :: argv)
  obtain ⟨_, w', ran, started⟩ := hstart.returns fun e _ he => by
    rw [segment] at he
    cases he.2.1
  refine ⟨w', ?_, ?_⟩
  · rw [handle, exec_found (machineHost T fuel B) 2 found]
    exact ran
  obtain ⟨_, stext', _, hstext, covers⟩ := (reached_ready reached).text (by simp [loaded])
  rw [section_] at hstext
  cases hstext
  have some_ : 0 < stext.size.toNat := Nat.lt_of_le_of_lt (Nat.zero_le _) covers
  have text : ptext.isText = true := reached_segment reached ptext segment
  have hiff := mapped.base_iff (ptext_mem file segment) text
  cases started with
  | failed w' none dbg os calls =>
    rw [spawn] at none
    cases none
  | ended pid' fate st w' spawn' dead dbg os calls =>
    rw [spawn] at spawn'
    cases spawn'
    exact absurd rfl (dead regs hidden image)
  | ready pid' regs' hidden' image' ptext' base w' spawn' segment' bias' dbg os calls =>
    rw [spawn] at spawn'
    cases spawn'
    rw [segment] at segment'
    cases segment'
    rw [mapped.begin] at bias'
    have hbase : w'.dbg.base = base := by rw [dbg]
    have running : w'.dbg.stat = .running := by rw [dbg]
    have hsection : w'.dbg.stextHdr = some stext := by rw [dbg]; exact section_
    have haddrs : w'.dbg.bp.map (·.addr) = w.dbg.bp.map (·.addr + base) := by
      rw [dbg]
      exact rebased_addrs base w.dbg.bp image
    have live : Live w' { fresh regs hidden image with
        mem := overlay image (w.dbg.bp.map (·.addr + base)) 0xcc } :=
      ⟨by rw [os]; rfl, by rw [dbg, os]; rfl⟩
    rw [← hiff, ← bounds_iff some_, ← bias']
    refine relocated_iff live running hbase hsection haddrs ?_
    intro b hm
    exact overlay_mem (List.mem_map.mpr ⟨b, hm, rfl⟩)

theorem pie_mapped {eh : ElfHandle} {segments : List Phdr} (phdr : eh.phdr = some segments)
    (type : eh.elf.ehdr.map Ehdr.type = some ET_DYN)
    (attained : ∃ p ∈ segments, p.type = PT_LOAD ∧ p.vaddr = 0) :
    Mapped eh 0 Demo.bias Demo.pieMaps where
  attained := by rwa [phdr]
  lowest := fun p _ _ => BitVec.le_def.mpr (Nat.zero_le _)
  choice := by
    obtain ⟨h, hh, ht⟩ := Option.map_eq_some_iff.mp type
    exact ⟨h, hh, .inr ⟨ht, rfl, by decide⟩⟩
  line := ⟨"555555554000".toList, "555555556000 r-xp 00000000 08:01 7 /tmp/demo\n".toList,
    by decide, by decide, List.all_eq_true.mp (by decide), by decide⟩

/-- What the demo sessions look at in LOADED. -/
def checkLoaded (w : World (Machine Demo.Hidden)) (segments : List Phdr) (ptext : Phdr) : Bool :=
  w.dbg.stat = .loaded && w.dbg.ptextHdr = some ptext &&
    w.dbg.stextHdr = some (Demo.text 0x1000 0x10) && match w.dbg.eh with
    | none => false
    | some eh => eh.phdr = some segments && eh.elf.ehdr.map Ehdr.type = some ET_DYN

theorem checked_loaded {w : World (Machine Demo.Hidden)} {segments : List Phdr} {ptext : Phdr}
    (h : checkLoaded w segments ptext = true) :
    w.dbg.stat = .loaded ∧ w.dbg.ptextHdr = some ptext ∧
      w.dbg.stextHdr = some (Demo.text 0x1000 0x10) ∧ ∃ eh, w.dbg.eh = some eh ∧
        eh.phdr = some segments ∧ eh.elf.ehdr.map Ehdr.type = some ET_DYN := by
  obtain ⟨h, hfile⟩ := Bool.and_eq_true_iff.mp h
  obtain ⟨h, hsection⟩ := Bool.and_eq_true_iff.mp h
  obtain ⟨hstat, hsegment⟩ := Bool.and_eq_true_iff.mp h
  refine ⟨of_decide_eq_true hstat, of_decide_eq_true hsegment, of_decide_eq_true hsection, ?_⟩
  cases he : w.dbg.eh with
  | none =>
    rw [he] at hfile
    cases hfile
  | some eh =>
    rw [he] at hfile
    obtain ⟨hphdr, htype⟩ := Bool.and_eq_true_iff.mp hfile
    exact ⟨eh, rfl, of_decide_eq_true hphdr, of_decide_eq_true htype⟩

/-- A position-independent program in one segment, with a breakpoint set before `start`. -/
theorem start_relocates_demo : ∃ w w' : World (Machine Demo.Hidden),
    w.dbg.bp.map (·.addr) = [0x1002] ∧
      handle (Demo.host (Demo.pie [Demo.segment (PF_R ||| PF_X) 0 0x2000])) (.line ["start"]) w =
        .ok () w' ∧
      w'.dbg.base = Demo.bias ∧ w'.dbg.bp.map (·.addr) = [0x555555555002] := by
  let segment := Demo.segment (PF_R ||| PF_X) 0 0x2000
  obtain ⟨w, hw, hs⟩ := exists_reached (handle (Demo.host (Demo.pie [segment]))) (fun _ i _ => typed i)
    (World.init (Demo.machine (Demo.pieProgram Demo.nops)))
    [.line ["load", "demo"], .line ["b", "0x1002"]]
    (fun w => checkLoaded w [segment] segment && w.dbg.bp.map (·.addr) = [0x1002])
    (by decide +kernel)
  obtain ⟨hcheck, hbp⟩ := Bool.and_eq_true_iff.mp hs
  obtain ⟨loaded, hsegment, hsection, eh, file, phdr, type⟩ := checked_loaded hcheck
  have mapped := pie_mapped phdr type ⟨segment, by simp, rfl, rfl⟩
  have spawn := congrFun (reached_spawns rfl hw) w.os.forks
  have found : lookup Builtin.all "start" = some .start := by decide
  have hw' : Reached _ (fun _ _ _ => True) _ w := hw.mono fun _ _ _ _ => trivial
  obtain ⟨w', ran, hiff⟩ := start_relocates_iff Demo.isa 64 (Demo.services (Demo.pie [segment])) _ w
    hw' loaded eh file segment hsegment _ hsection 42 _ _ _ spawn 0 Demo.bias mapped "start" [] found
  have relocated := hiff.mpr ⟨.inl rfl, by decide⟩
  refine ⟨w, w', of_decide_eq_true hbp, ran, relocated.base, ?_⟩
  have hmap : w.dbg.bp.map (·.addr + Demo.bias) = (w.dbg.bp.map (·.addr)).map (· + Demo.bias) := by
    rw [List.map_map]
    rfl
  rw [relocated.moved, hmap, of_decide_eq_true hbp]
  rfl

/-- A position-independent program whose code has a segment of its own: `ptext` is not
linked at zero, and `start` takes the bias to be zero. -/
theorem separate_code_unbiased : ∃ (w w' : World (Machine Demo.Hidden)) (eh : ElfHandle),
    Reached (handle (Demo.host (Demo.pie
        [Demo.segment PF_R 0 0x1000, Demo.segment (PF_R ||| PF_X) 0x1000 0x1000])))
      (fun _ i _ => typed i = true)
      (World.init (Demo.machine (Demo.pieProgram Demo.nops))) w ∧
    w.dbg.stat = .loaded ∧ w.dbg.ptextHdr ≠ none ∧ w.dbg.eh = some eh ∧
    Mapped eh 0 Demo.bias Demo.pieMaps ∧
    handle (Demo.host (Demo.pie
        [Demo.segment PF_R 0 0x1000, Demo.segment (PF_R ||| PF_X) 0x1000 0x1000]))
      (.line ["start"]) w = .ok () w' ∧
    w'.dbg.stat = .running ∧ w'.dbg.base ≠ Demo.bias := by
  let segments := [Demo.segment PF_R 0 0x1000, Demo.segment (PF_R ||| PF_X) 0x1000 0x1000]
  obtain ⟨w, hw, hs⟩ := exists_reached (handle (Demo.host (Demo.pie segments))) (fun _ i _ => typed i)
    (World.init (Demo.machine (Demo.pieProgram Demo.nops)))
    [.line ["load", "demo"], .line ["b", "0x1002"]]
    (fun w => checkLoaded w segments (Demo.segment (PF_R ||| PF_X) 0x1000 0x1000) &&
      (returned (handle (Demo.host (Demo.pie segments)) (.line ["start"]) w)).any fun w' =>
        w'.dbg.stat = .running && w'.dbg.base ≠ Demo.bias)
    (by decide +kernel)
  obtain ⟨hcheck, hran⟩ := Bool.and_eq_true_iff.mp hs
  obtain ⟨loaded, hsegment, _, eh, file, phdr, type⟩ := checked_loaded hcheck
  have mapped := pie_mapped phdr type ⟨Demo.segment PF_R 0 0x1000, by simp [segments], rfl, rfl⟩
  obtain ⟨w', hend, hran⟩ := (Option.any_eq_true _ _).mp hran
  obtain ⟨_, hend⟩ := returned_eq_some.mp hend
  obtain ⟨running, hbase⟩ := Bool.and_eq_true_iff.mp hran
  exact ⟨w, w', eh, hw, loaded, by simp [hsegment], file, mapped, hend,
    of_decide_eq_true running, of_decide_eq_true hbase⟩

end UnixProgramming.Sdb.Proofs
