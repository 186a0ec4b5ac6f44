import UnixProgramming.Sdb.Proofs.Disasm
import UnixProgramming.Sdb.Proofs.Store

namespace UnixProgramming.Sdb.Proofs
open Lib

/-- Every breakpoint lies on a byte of the text section, from `base` on. -/
def Bounded (d : Debugger) : Prop :=
  ∀ b ∈ d.bp, ∃ stext, d.stextHdr = some stext ∧ Shdr.Covers stext (b.addr - d.base)

/-- The input is no accepted `break` at the end of the section, and no `load` of a name that runs
over the end of `program`. -/
def EndSpared (H : Host σ) (w : World σ) (i : Input σ) (_ : World σ) : Prop :=
  NameFits H i ∧ ∀ target stext, command H i = some .break →
    accepted w.dbg (arguments i) = some target → w.dbg.stextHdr = some stext →
      target ≠ w.dbg.textEnd stext

section Records
variable {d d' : Debugger} {stext : Shdr} {target : Word}

theorem bounded_nil (h : d.bp = []) : Bounded d := by
  intro b hb
  rw [h] at hb
  cases hb

/-- Breakpoints that keep their places in the same file stay inside. -/
theorem Bounded.moved (h : Bounded d) (same : SameFile d d')
    (places : d'.bp.map (fun b => (b.id, b.addr - d'.base)) =
      d.bp.map (fun b => (b.id, b.addr - d.base))) : Bounded d' := by
  intro b' hb'
  have hm : (b'.id, b'.addr - d'.base) ∈ d.bp.map (fun b => (b.id, b.addr - d.base)) :=
    places ▸ List.mem_map.mpr ⟨b', hb', rfl⟩
  obtain ⟨b, hb, he⟩ := List.mem_map.mp hm
  obtain ⟨stext, ht, hc⟩ := h b hb
  refine ⟨stext, same.stextHdr.trans ht, ?_⟩
  rw [← (Prod.mk.inj he).2]
  exact hc

/-- What lies between the ends of the section lies in it, but for its end. -/
theorem between_covers (low : d.textBegin stext ≤ target) (high : target ≤ d.textEnd stext)
    (spared : target ≠ d.textEnd stext) : Shdr.Covers stext (target - d.base) := by
  have hlow : (d.textBegin stext).toNat ≤ target.toNat := low
  have hhigh : target.toNat ≤ (d.textEnd stext).toNat := high
  have hne : target.toNat ≠ (d.textEnd stext).toNat := fun h => spared (BitVec.eq_of_toNat_eq h)
  have hend : (d.textEnd stext).toNat =
      ((d.textBegin stext).toNat + stext.size.toNat) % 2 ^ 64 := BitVec.toNat_add _ _
  have hoff : target - d.base - stext.addr = target - d.textBegin stext := by
    rw [Debugger.textBegin, sub_sub]
  have hsub := BitVec.toNat_sub_of_le low
  unfold Shdr.Covers offset
  rw [hoff, hsub]
  have hsize := stext.size.isLt
  omega

theorem accepted_covers {argv : List String} (h : accepted d argv = some target)
    (text : d.stextHdr = some stext) (spared : target ≠ d.textEnd stext) :
    Shdr.Covers stext (target - d.base) := by
  unfold accepted at h
  split at h
  · rename_i stext' _ ht
    rw [text] at ht
    cases ht
    split at h
    · cases h
    · split at h
      · cases h
      · rename_i hrange
        split at h
        · cases h
        · cases h
          rw [not_or, BitVec.not_lt, BitVec.not_lt] at hrange
          exact between_covers hrange.1 hrange.2 spared
  · cases h

theorem accepted_text {argv : List String} (h : accepted d argv = some target) :
    ∃ stext, d.stextHdr = some stext := by
  unfold accepted at h
  split at h
  · rename_i stext _ ht
    exact ⟨stext, ht⟩
  · cases h

theorem moves_bounded {s s' : Snap} (hm : Moves s s') (inv : Ready s.1) (clean : Clean s.1)
    (h : Bounded s.1) : Bounded s'.1 := by
  induction hm with
  | refl => exact h
  | tail before step ih =>
    exact ih.moved (move_file step)
      (move_places step (moves_ready before inv) (moves_clean before clean)).2

theorem load_bounded {name : String} (hb : Blank d) (h : LoadResult d name d') : Bounded d' := by
  cases h with
  | absent => exact bounded_nil hb.bp
  | rejected => exact bounded_nil rfl
  | loaded eh stext found fits => exact bounded_nil hb.bp

end Records

section Rounds
variable {σ : Type} {H : Host σ}

theorem round_bounded {i : Input σ} {w w' : World σ} (h : Round H w i w')
    (ready : Ready w.dbg) (clean : Clean w.dbg) (spared : EndSpared H w i w')
    (inv : Bounded w.dbg) : Bounded w'.dbg := by
  cases h with
  | outside move w' same => exact dbg_eq same ▸ inv
  | unknown word argv w' found same => exact dbg_eq same ▸ inv
  | quiet word argv w' b found still moves => exact moves_bounded moves ready clean inv
  | bare word w' found same => exact dbg_eq same ▸ inv
  | load word name argv w' found calls result =>
    exact load_bounded (cleared_blank ready).2 result
  | «break» word argv w' found calls broke =>
    obtain ⟨_, he⟩ | ⟨target, code, ha, he⟩ := broke.cases
    · exact he ▸ inv
    · obtain ⟨stext, ht⟩ := accepted_text ha
      have hc := accepted_covers ha ht (spared.2 target stext found ha ht)
      rw [he]
      intro b hb
      rcases List.mem_append.mp hb with hb | hb
      · exact inv b hb
      · rw [List.mem_singleton.mp hb]
        exact ⟨stext, ht, hc⟩
  | delete word argv w' found calls deleted =>
    obtain ⟨_, he⟩ | ⟨b, bp, hr, he⟩ := deleted.cases
    · exact he ▸ inv
    · obtain ⟨pre, post, hold, hnew⟩ := removed_split hr
      rw [he, hnew]
      intro b' hb'
      apply inv b'
      rw [hold]
      rcases List.mem_append.mp hb' with hb' | hb'
      · exact List.mem_append_left _ hb'
      · exact List.mem_append_right _ (List.mem_cons_of_mem _ hb')

theorem reached_bounded {os : σ} {w : World σ}
    (h : Reached (handle H) (EndSpared H) (World.init os) w) : Bounded w.dbg := by
  refine h.invariant (I := fun w => Bounded w.dbg) (bounded_nil rfl) ?_
  intro w i w' before inv spared ran
  exact round_bounded (handle_round H ran) (reached_ready before)
    (reached_clean (fun _ _ _ h => h.1) before) spared inv

end Rounds

/-- As long as no `break` is accepted at the end of the section and every name fits, every
breakpoint lies in the half-open range that `load` takes the entry point from. -/
theorem breakpoints_in_text {σ : Type} (H : Host σ) (os : σ) (w : World σ)
    (reached : Reached (handle H) (EndSpared H) (World.init os) w) (b : BreakPt)
    (set : b ∈ w.dbg.bp) :
    ∃ stext, w.dbg.stextHdr = some stext ∧ Shdr.Covers stext (b.addr - w.dbg.base) ∧
      (stext.addr.toNat + stext.size.toNat ≤ 2 ^ 64 →
        stext.addr.toNat ≤ (b.addr - w.dbg.base).toNat ∧
          (b.addr - w.dbg.base).toNat < stext.addr.toNat + stext.size.toNat) := by
  obtain ⟨stext, text, covers⟩ := reached_bounded reached b set
  refine ⟨stext, text, covers, ?_⟩
  intro nowrap
  have hsub := BitVec.toNat_sub (b.addr - w.dbg.base) stext.addr
  have hlt := (b.addr - w.dbg.base).isLt
  unfold Shdr.Covers offset at covers
  rw [hsub] at covers
  omega

/-- What the demo session checks of each input. -/
def checkSpared {σ : Type} (H : Host σ) (w : World σ) (i : Input σ) : Bool :=
  NameFits H i && match accepted w.dbg (arguments i), w.dbg.stextHdr with
  | some target, some stext => target ≠ w.dbg.textEnd stext
  | _, _ => true

theorem endSpared_of_check {σ : Type} {H : Host σ} {w w' : World σ} {i : Input σ}
    (h : checkSpared H w i = true) : EndSpared H w i w' := by
  obtain ⟨fits, spared⟩ := Bool.and_eq_true_iff.mp h
  refine ⟨of_decide_eq_true fits, fun target stext _ ha ht => ?_⟩
  rw [ha, ht] at spared
  exact of_decide_eq_true spared

/-- A position-independent program with a breakpoint on the last byte of its section, started. -/
theorem breakpoints_in_text_demo : ∃ (w : World (Machine Demo.Hidden)) (b : BreakPt),
    b ∈ w.dbg.bp ∧ b.addr = Demo.bias + 0x100f ∧
      ∃ stext, w.dbg.stextHdr = some stext ∧ Shdr.Covers stext (b.addr - w.dbg.base) := by
  let host := Demo.host (Demo.pie [Demo.segment (PF_R ||| PF_X) 0 0x2000])
  let start := World.init (Demo.machine (Demo.pieProgram Demo.nops))
  obtain ⟨w, hw, hs⟩ := exists_reached (handle host) (fun w i _ => checkSpared host w i) start
    [.line ["load", "demo"], .line ["b", "0x100f"], .line ["start"]]
    (fun w => w.dbg.bp.any fun b => b.addr = Demo.bias + 0x100f) (by decide +kernel)
  have spared : Reached (handle host) (EndSpared host) start w :=
    hw.mono fun _ _ _ => endSpared_of_check
  obtain ⟨b, hb, ha⟩ := List.any_eq_true.mp hs
  obtain ⟨stext, text, covers, _⟩ := breakpoints_in_text host _ w spared b hb
  exact ⟨w, b, hb, of_decide_eq_true ha, stext, text, covers⟩

/-- `break` takes the end of the section for a part of it, and `start` patches the byte there. -/
theorem end_of_text_patched : ∃ (w : World (Machine Demo.Hidden)) (c : Child Demo.Hidden) (b : BreakPt),
    Reached (handle (Demo.host Demo.static)) (fun _ _ _ => True)
      (World.init (Demo.machine (Demo.program Demo.nops))) w ∧
    b ∈ w.dbg.bp ∧ w.dbg.stextHdr = some (Demo.text 0x401000 0x10) ∧
    ¬Shdr.Covers (Demo.text 0x401000 0x10) (b.addr - w.dbg.base) ∧
    Live w c ∧ c.image b.addr = 0 ∧ c.mem b.addr = 0xcc := by
  obtain ⟨w, hw, hs⟩ := exists_run (handle (Demo.host Demo.static))
    (World.init (Demo.machine (Demo.program Demo.nops)))
    [.line ["load", "demo"], .line ["b", "0x401010"], .line ["start"]]
    (fun w => checkStopped w fun c => w.dbg.stextHdr = some (Demo.text 0x401000 0x10) &&
      w.dbg.bp.any fun b => !decide (offset (0x401000 : Word) (b.addr - w.dbg.base) < 0x10) &&
        c.image b.addr = 0 && c.mem b.addr = 0xcc)
    (by decide +kernel)
  obtain ⟨_, c, live, hc⟩ := checked_stopped hs
  obtain ⟨htext, hany⟩ := Bool.and_eq_true_iff.mp hc
  obtain ⟨b, hb, hc⟩ := List.any_eq_true.mp hany
  obtain ⟨hc, hmem⟩ := Bool.and_eq_true_iff.mp hc
  obtain ⟨hout, himage⟩ := Bool.and_eq_true_iff.mp hc
  have hout : ¬offset (0x401000 : Word) (b.addr - w.dbg.base) < 0x10 := by simpa using hout
  exact ⟨w, c, b, hw, hb, of_decide_eq_true htext, hout, live, of_decide_eq_true himage,
    of_decide_eq_true hmem⟩

/-- In an undisturbed session on the machine, no byte outside the text section is patched. -/
theorem patched_in_text {η : Type} {T : Isa η} {fuel : Nat} {B : Host (Machine η)} {m : Machine η}
    {w : World (Machine η)} {c : Child η} {x : Word} (childless : m.proc = none)
    (reached : Reached (handle (machineHost T fuel B)) (fun w i w' =>
      Undisturbed (machineHost T fuel B) w i w' ∧ EndSpared (machineHost T fuel B) w i w')
      (World.init m) w) (live : Live w c) (patched : c.mem x ≠ c.image x) :
    ∃ stext, w.dbg.stextHdr = some stext ∧ Shdr.Covers stext (x - w.dbg.base) := by
  have undisturbed := reached.mono fun _ _ _ h => h.1
  have spared := reached.mono fun _ _ _ h => h.2
  have mem := ((reached_overlay childless undisturbed).armed c live).1
  have hx : x ∈ w.dbg.bp.map (·.addr) := by
    by_contra hoff
    apply patched
    rw [mem, overlay_not_mem hoff]
  obtain ⟨b, hb, ha⟩ := List.mem_map.mp hx
  rw [← ha]
  exact reached_bounded spared b hb

end UnixProgramming.Sdb.Proofs
