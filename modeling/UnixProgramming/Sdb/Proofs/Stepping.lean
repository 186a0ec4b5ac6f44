import Mathlib.Data.List.Pairwise
import UnixProgramming.Sdb.Proofs.Overlay

namespace UnixProgramming.Sdb.Proofs
open Lib

section Machine
variable {η : Type} {T : Isa η} {c c' u u' : Child η} {s t : List Word}

theorem step_on_iff : c.step T = .on c' ↔ c.mem (c.regs .rip) ≠ 0xcc ∧
    ∃ regs hidden wrote, T.exec c.regs c.hidden c.mem = .next regs hidden wrote ∧
      c' = c.after regs hidden wrote := by
  unfold Child.step
  by_cases hm : c.mem (c.regs .rip) = 0xcc
  · simp [hm]
  · rw [if_neg hm]
    constructor
    · intro h
      split at h
      · rename_i regs hidden wrote he
        cases h
        exact ⟨hm, regs, hidden, wrote, he, rfl⟩
      · cases h
      · cases h
      · cases h
    · intro h
      obtain ⟨_, regs, hidden, wrote, he, hc⟩ := h
      rw [he, hc]

theorem step_exit_iff {code : Byte} : c.step T = .halted (.exit code) ↔
    c.mem (c.regs .rip) ≠ 0xcc ∧ T.exec c.regs c.hidden c.mem = .exit code := by
  unfold Child.step
  by_cases hm : c.mem (c.regs .rip) = 0xcc
  · simp [hm]
  · rw [if_neg hm]
    constructor
    · intro h
      split at h
      · cases h
      · cases h
      · rename_i he
        cases h
        exact ⟨hm, he⟩
      · cases h
    · intro h
      rw [h.2]

/-- What `c` is without the debugger: the same tracee on the original image. -/
def bare (c : Child η) (image : Memory 64) : Child η := { c with mem := image }

/-- The instruction `u` is about to execute meets the bytes at `s` in no other way than
by starting on one: it covers, reads and writes none of them. -/
structure Clear (T : Isa η) (s : List Word) (u : Child η) : Prop where
  uncovered : ∀ a ∈ s, offset (u.regs .rip) a < T.length u.regs u.hidden u.mem → a = u.regs .rip
  unread : ∀ a ∈ s, T.reads u.regs u.hidden u.mem a = false
  unwritten : ∀ a ∈ s, ∀ regs hidden wrote,
    T.exec u.regs u.hidden u.mem = .next regs hidden wrote → wrote a = none

theorem Clear.mono (h : Clear T t u) (sub : s ⊆ t) : Clear T s u where
  uncovered := fun a ha => h.uncovered a (sub ha)
  unread := fun a ha => h.unread a (sub ha)
  unwritten := fun a ha => h.unwritten a (sub ha)

/-- `c` is `u` with `0xcc` over the bytes at `s`. -/
structure Over (s : List Word) (c u : Child η) : Prop where
  regs : c.regs = u.regs
  hidden : c.hidden = u.hidden
  mem : c.mem = overlay u.mem s 0xcc

theorem putAll_overlay {wrote : Word → Option Byte} {m : Memory 64} {v : Byte}
    (h : ∀ a ∈ s, wrote a = none) :
    putAll wrote (overlay m s v) = overlay (putAll wrote m) s v := by
  apply eq_overlay
  · intro x hx
    rw [putAll, h x hx, Option.getD_none, overlay_mem hx]
  · intro x hx
    rw [putAll, putAll, overlay_not_mem hx]

theorem Over.byte (h : Over s c u) (off : u.regs .rip ∉ s) :
    c.mem (c.regs .rip) = u.mem (u.regs .rip) := by
  rw [h.mem, h.regs, overlay_not_mem off]

/-- Away from the covered bytes the two execute the same instruction. -/
theorem Over.exec (h : Over s c u) (clear : Clear T s u) (off : u.regs .rip ∉ s) :
    T.exec c.regs c.hidden c.mem = T.exec u.regs u.hidden u.mem := by
  rw [h.regs, h.hidden, h.mem]
  apply T.local_
  intro x hx
  apply overlay_not_mem
  intro hm
  rcases hx with hcover | hread
  · exact off (clear.uncovered x hm hcover ▸ hm)
  · rw [clear.unread x hm] at hread
    cases hread

theorem Over.step (h : Over s c u) (clear : Clear T s u) (off : u.regs .rip ∉ s)
    (on : u.step T = .on u') : ∃ c', c.step T = .on c' ∧ Over s c' u' := by
  obtain ⟨hbyte, regs, hidden, wrote, he, hu⟩ := step_on_iff.mp on
  subst hu
  have hc := (h.exec clear off).trans he
  refine ⟨c.after regs hidden wrote, ?_, rfl, rfl, ?_⟩
  · exact step_on_iff.mpr ⟨by rwa [h.byte off], regs, hidden, wrote, hc, rfl⟩
  · have hnone : ∀ a ∈ s, wrote a = none := fun a ha => clear.unwritten a ha _ _ _ he
    unfold Child.after
    dsimp only
    rw [h.mem, putAll_overlay hnone]

theorem Over.exit (h : Over s c u) (clear : Clear T s u) (off : u.regs .rip ∉ s) {code : Byte}
    (ends : u.step T = .halted (.exit code)) : c.step T = .halted (.exit code) := by
  obtain ⟨hbyte, he⟩ := step_exit_iff.mp ends
  exact step_exit_iff.mpr ⟨by rwa [h.byte off], (h.exec clear off).trans he⟩

/-- On a covered byte the child traps, one byte further. -/
theorem Over.trap (h : Over s c u) (on : u.regs .rip ∈ s) :
    c.step T = .halted (.stop SIGTRAP { c with regs := c.regs.set .rip (c.regs .rip + 1) }) := by
  have hbyte : c.mem (c.regs .rip) = 0xcc := by rw [h.mem, h.regs, overlay_mem on]
  rw [Child.step, if_pos hbyte]

/-- As long as the program keeps off the covered bytes the child follows it. -/
theorem Over.follow {path : Nat → Child η} {n i : Nat} (h : Over s c (path i))
    (walk : ∀ j, i ≤ j → j < i + n → (path j).step T = .on (path (j + 1)) ∧
      Clear T s (path j) ∧ (path j).regs .rip ∉ s) :
    ∃ c', Over s c' (path (i + n)) ∧ ∀ fuel, c.run T (n + fuel) = c'.run T fuel := by
  induction n generalizing i c with
  | zero => exact ⟨c, h, fun fuel => by rw [Nat.zero_add]⟩
  | succ n ih =>
    obtain ⟨on, clear, off⟩ := walk i (by omega) (by omega)
    obtain ⟨c₁, hstep, hover⟩ := h.step clear off on
    obtain ⟨c', hend, hrun⟩ := ih hover fun j hj hlt => walk j (by omega) (by omega)
    refine ⟨c', ?_, ?_⟩
    · rwa [Nat.add_right_comm, Nat.add_assoc] at hend
    · intro fuel
      rw [Nat.add_right_comm, Child.run, hstep]
      exact hrun fuel

end Machine

section Instrumented
variable {η : Type} {T : Isa η} {d : Debugger} {c c' u' : Child η} {image : Memory 64} {b : BreakPt}

/-- Two addresses whose words of eight bytes do not meet. -/
def Apart (a a' : Word) : Prop := 8 ≤ offset a a' ∧ 8 ≤ offset a' a

instance : Std.Symm Apart := ⟨fun _ _ h => ⟨h.2, h.1⟩⟩

/-- Memory is `image` with `0xcc` at the breakpoints, the saved words are those of
`image`, and no two of them meet. -/
structure Instrumented (d : Debugger) (image : Memory 64) (c : Child η) : Prop where
  mem : c.mem = overlay image (d.bp.map (·.addr)) 0xcc
  saved : ∀ b ∈ d.bp, b.code = load 8 image b.addr
  apart : (d.bp.map (·.addr)).Pairwise Apart

theorem Instrumented.armed (h : Instrumented d image c) : Armed d.bp image c.mem where
  mem := h.mem
  code := by
    intro b hb
    have hl : byteOf (load 8 image b.addr) 0 = image (b.addr + BitVec.ofNat 64 0) :=
      byteOf_load image b.addr (by omega)
    rw [h.saved b hb, hl, BitVec.add_zero]

theorem Instrumented.intact (h : Instrumented d image c) (hb : b ∈ d.bp) : Intact b c.mem := by
  intro i hpos hlt
  have hl : byteOf (load 8 image b.addr) i = image (b.addr + BitVec.ofNat 64 i) :=
    byteOf_load image b.addr hlt
  rw [h.saved b hb, hl, h.mem, overlay_not_mem]
  intro hm
  have ho : offset b.addr (b.addr + BitVec.ofNat 64 i) = i := offset_add _ (by omega)
  have hne : b.addr ≠ b.addr + BitVec.ofNat 64 i := by
    intro he
    rw [← he, offset_self] at ho
    omega
  have hfar := (h.apart.forall (List.mem_map.mpr ⟨b, hb, rfl⟩) hm hne).1
  omega

@[simp] theorem lifted_regs (d : Debugger) (c : Child η) : (lifted d c).regs = c.regs := by
  unfold lifted
  split <;> rfl

@[simp] theorem lifted_hidden (d : Debugger) (c : Child η) : (lifted d c).hidden = c.hidden := by
  unfold lifted
  split <;> rfl

@[simp] theorem rearmed_regs (d : Debugger) (a : Word) (c : Child η) :
    (rearmed d a c).regs = c.regs := by
  unfold rearmed
  split <;> rfl

@[simp] theorem rearmed_hidden (d : Debugger) (a : Word) (c : Child η) :
    (rearmed d a c).hidden = c.hidden := by
  unfold rearmed
  split <;> rfl

theorem rewind_off (off : c.regs .rip - 1 ∉ d.bp.map (·.addr)) : rewind d c = c := by
  rw [rewind, bpFind_none.mpr off]
  rfl

theorem rewind_on (on : c.regs .rip - 1 ∈ d.bp.map (·.addr)) :
    rewind d c = { c with regs := c.regs.set .rip (c.regs .rip - 1) } := by
  have hf : d.bpFindByAddr (c.regs .rip - 1) ≠ none := fun hn => bpFind_none.mp hn on
  rw [rewind, if_pos (Option.isSome_iff_ne_none.mpr hf)]

/-- With its own breakpoint lifted the child executes the instruction of the program. -/
theorem Instrumented.step (h : Instrumented d image c)
    (clear : Clear T (d.bp.map (·.addr)) (bare c image)) (on : (bare c image).step T = .on u') :
    ∃ c₁, (lifted d c).step T = .on c₁ ∧
      Over ((d.bp.map (·.addr)).filter (· ≠ c.regs .rip)) c₁ u' := by
  have hl := h.armed.lifted_mem fun b hu => h.intact (underRip_some hu).1
  have hover : Over ((d.bp.map (·.addr)).filter (· ≠ c.regs .rip)) (lifted d c) (bare c image) :=
    ⟨lifted_regs d c, lifted_hidden d c, hl⟩
  have off : (bare c image).regs .rip ∉ (d.bp.map (·.addr)).filter (· ≠ c.regs .rip) := by
    intro hm
    have hne := (List.mem_filter.mp hm).2
    simp [bare] at hne
  exact hover.step (clear.mono (List.filter_subset_self _)) off on

theorem Over.rearm (h : Over ((d.bp.map (·.addr)).filter (· ≠ c.regs .rip)) c' u') :
    Over (d.bp.map (·.addr)) (rearmed d (c.regs .rip) c') u' where
  regs := (rearmed_regs d _ c').trans h.regs
  hidden := (rearmed_hidden d _ c').trans h.hidden
  mem := rearmed_mem h.mem

end Instrumented

section Commands
variable {η : Type} {T : Isa η} {B : Host (Machine η)} {w : World (Machine η)} {c u' : Child η}
  {image : Memory 64} {word : String}

theorem Stuck.stop {sig : Signal} {c' : Child η} {e : Halt} :
    ¬Stuck w (some (.stop sig c')) e := by
  intro h
  rcases h with ⟨_, h⟩ | ⟨_, _, code, h⟩ <;> cases h

/-- `si` on an instrumented child, up to the look of `reset_rip` at the new `rip`. -/
theorem si_runs (fuel : Nat) (live : Live w c) (running : w.dbg.stat = .running)
    (inst : Instrumented w.dbg image c) (found : lookup B.list word = some .si)
    (argv : List String) (clear : Clear T (w.dbg.bp.map (·.addr)) (bare c image))
    (on : (bare c image).step T = .on u') :
    ∃ w' c₁, handle (machineHost T fuel B) (.line (word :: argv)) w = .ok () w' ∧
      Over ((w.dbg.bp.map (·.addr)).filter (· ≠ c.regs .rip)) c₁ u' ∧
      Live w' (rearmed w.dbg (c.regs .rip) (rewind w.dbg c₁)) := by
  obtain ⟨c₁, hstep, hover⟩ := inst.step clear on
  have hgo : (lifted w.dbg c).go T fuel .singlestep = some (.stop SIGTRAP c₁) := by
    simp [Child.go, hstep]
  have hsi : Wp (cmdSi (machineHost T fuel B)) _ _ w := si_live live running
  have sure : ∀ e, World (Machine η) → ¬Stuck w ((lifted w.dbg c).go T fuel .singlestep) e := by
    intro e _
    rw [hgo]
    exact Stuck.stop
  obtain ⟨_, w', hran, e, hgo', hw⟩ := hsi.returns sure
  rw [hgo] at hgo'
  cases hgo'
  refine ⟨w', c₁, ?_, hover, hw.live live.pid⟩
  rw [handle, exec_found (machineHost T fuel B) 2 found]
  exact hran

/-- The record `stop_debugger` leaves of a running program. -/
theorem stopRecord_loaded {d d' : Debugger} (running : d.stat = .running)
    (h : stopRecord d = some d') : d'.stat = .loaded := by
  unfold stopRecord at h
  rw [running] at h
  obtain ⟨ptext, _, hd⟩ := Option.map_eq_some_iff.mp h
  subst hd
  rfl

/-- `cont` on an instrumented child whose first step does not leave it one byte behind a
breakpoint: the child runs on from the program's state after one instruction. -/
theorem cont_runs (live : Live w c) (running : w.dbg.stat = .running)
    (inst : Instrumented w.dbg image c) (found : lookup B.list word = some .cont)
    (argv : List String) (clear : Clear T (w.dbg.bp.map (·.addr)) (bare c image))
    (on : (bare c image).step T = .on u') (off : u'.regs .rip - 1 ∉ w.dbg.bp.map (·.addr)) :
    ∃ c₁, Over (w.dbg.bp.map (·.addr)) c₁ u' ∧
      ∀ fuel e, c₁.run T fuel = some e → (∀ code, e = .exit code → w.dbg.ptextHdr ≠ none) →
        ∃ w₁ w', handle (machineHost T fuel B) (.line (word :: argv)) w = .ok () w' ∧
          w₁.dbg = { w.dbg with status := stopStatus SIGTRAP } ∧ w₁.dbg.pid = w₁.os.pid ∧
          Waited w₁ (rewind w.dbg) e w' := by
  obtain ⟨c₁, hstep, hover⟩ := inst.step clear on
  have hrewind : rewind w.dbg c₁ = c₁ := rewind_off (by rwa [hover.regs])
  refine ⟨rearmed w.dbg (c.regs .rip) c₁, hover.rearm, ?_⟩
  intro fuel e hrun text
  have hgo : (lifted w.dbg c).go T fuel .singlestep = some (.stop SIGTRAP c₁) := by
    simp [Child.go, hstep]
  have hcont : Wp (cmdCont (machineHost T fuel B) (exec (machineHost T fuel B) 2) (word :: argv))
    _ _ w := cont_live live running hgo
  have sure : ∀ e', World (Machine η) → ¬Stuck w
      ((rearmed w.dbg (c.regs .rip) (rewind w.dbg c₁)).go T fuel .cont) e' := by
    intro e' _ hs
    rw [hrewind, Child.go, hrun] at hs
    rcases hs with ⟨_, hs⟩ | ⟨_, ht, code, hs⟩
    · cases hs
    · cases hs
      exact text code rfl ht
  obtain ⟨_, w', hran, w₁, e', hw₁, hgo', hw'⟩ := hcont.returns sure
  rw [hrewind, Child.go, hrun] at hgo'
  cases hgo'
  refine ⟨w₁, w', ?_, hw₁.stopped_record, (hw₁.live live.pid).pid, hw'⟩
  rw [handle, exec_found (machineHost T fuel B) 2 found]
  exact hran

end Commands

/-- On an instrumented child whose next instruction keeps clear of the breakpoints, `si`
leaves the program's state after that instruction, with the breakpoints over it, exactly
when no breakpoint lies one byte before the new `rip`. -/
theorem si_steps_iff {η : Type} (T : Isa η) (fuel : Nat) (B : Host (Machine η))
    (w : World (Machine η)) (c : Child η) (live : Live w c) (running : w.dbg.stat = .running)
    (image : Memory 64) (inst : Instrumented w.dbg image c) (word : String) (argv : List String)
    (found : lookup B.list word = some .si)
    (clear : Clear T (w.dbg.bp.map (·.addr)) (bare c image)) (u' : Child η)
    (on : (bare c image).step T = .on u') :
    (∃ w' c', handle (machineHost T fuel B) (.line (word :: argv)) w = .ok () w' ∧ Live w' c' ∧
        c'.regs = u'.regs ∧ c'.hidden = u'.hidden ∧
        c'.mem = overlay u'.mem (w.dbg.bp.map (·.addr)) 0xcc) ↔
      ∀ b ∈ w.dbg.bp, b.addr ≠ u'.regs .rip - 1 := by
  obtain ⟨w', c₁, hran, hover, hlive⟩ := si_runs fuel live running inst found argv clear on
  have hiff : u'.regs .rip - 1 ∉ w.dbg.bp.map (·.addr) ↔
      ∀ b ∈ w.dbg.bp, b.addr ≠ u'.regs .rip - 1 := by
    simp
  rw [← hiff]
  constructor
  · intro h hm
    obtain ⟨w₂, c', hran', hlive', hregs, _⟩ := h
    rw [hran] at hran'
    cases hran'
    rw [hlive.unique hlive', rearmed_regs, rewind_on (by rwa [hover.regs]), hover.regs] at hregs
    have hrip := congrFun hregs .rip
    simp [Regs.set] at hrip
  · intro off
    have hrewind : rewind w.dbg c₁ = c₁ := rewind_off (by rwa [hover.regs])
    rw [hrewind] at hlive
    exact ⟨w', _, hran, hlive, hover.rearm.regs, hover.rearm.hidden, hover.rearm.mem⟩

section Demo
variable {w : World (Machine Demo.Hidden)} {c u : Child Demo.Hidden} {a : Word}

/-- A demo session with one breakpoint whose saved word is the image's. -/
theorem demo_instrumented {fate : Fate Demo.Hidden}
    (reached : Reached (handle (Demo.host Demo.static))
      (fun w i w' => checkUndisturbed (Demo.host Demo.static) w i w' = true)
      (World.init (Demo.machine fate)) w)
    (live : Live w c) (one : w.dbg.bp.map (·.addr) = [a])
    (saved : w.dbg.bp.all (fun b => b.code = load 8 c.image b.addr) = true) :
    Instrumented w.dbg c.image c where
  mem := by
    have undisturbed : Reached _ (Undisturbed _) _ w := reached.mono fun _ _ _ => undisturbed_of_check
    exact ((reached_overlay rfl undisturbed).armed c live).mem
  saved := fun b hb => of_decide_eq_true (List.all_eq_true.mp saved b hb)
  apart := by
    rw [one]
    exact List.pairwise_singleton _ _

theorem demo_clear (h : offset (u.regs .rip) a < Demo.isa.length u.regs u.hidden u.mem →
    a = u.regs .rip) : Clear Demo.isa [a] u where
  uncovered := by
    intro x hx
    rw [List.mem_singleton.mp hx]
    exact h
  unread := fun _ _ => rfl
  unwritten := by
    intro x _ regs hidden wrote he
    have hw := demo_writeless u.regs u.hidden u.mem
    rw [he] at hw
    exact hw x

/-- The child's state if it is stopped in RUNNING, has the one breakpoint at `a` and its
word is that of the image. -/
def checkChild (w : World (Machine Demo.Hidden)) (a : Word) (p : Child Demo.Hidden → Bool) : Bool :=
  checkStopped w fun c => w.dbg.bp.map (·.addr) = [a] &&
    w.dbg.bp.all (fun b => b.code = load 8 c.image b.addr) && p c

theorem checked_child {p : Child Demo.Hidden → Bool} (h : checkChild w a p = true) :
    w.dbg.stat = .running ∧ ∃ c, Live w c ∧ w.dbg.bp.map (·.addr) = [a] ∧
      w.dbg.bp.all (fun b => b.code = load 8 c.image b.addr) = true ∧ p c = true := by
  obtain ⟨running, c, live, h⟩ := checked_stopped h
  obtain ⟨h, hp⟩ := Bool.and_eq_true_iff.mp h
  obtain ⟨one, saved⟩ := Bool.and_eq_true_iff.mp h
  exact ⟨running, c, live, of_decide_eq_true one, saved, hp⟩

end Demo

/-- A step from a breakpoint on an instruction of five bytes. -/
theorem si_steps_demo : ∃ (w w' : World (Machine Demo.Hidden)) (c' : Child Demo.Hidden),
    handle (Demo.host Demo.static) (.line ["si"]) w = .ok () w' ∧ Live w' c' ∧
      c'.regs .rip = 0x401005 ∧ c'.mem 0x401000 = 0xcc := by
  obtain ⟨w, hw, hs⟩ := exists_reached (handle (Demo.host Demo.static))
    (fun w i w' => checkUndisturbed (Demo.host Demo.static) w i w')
    (World.init (Demo.machine (Demo.program Demo.exits)))
    [.line ["load", "demo"], .line ["b", "0x401000"], .line ["start"]]
    (fun w => checkChild w 0x401000 fun c => c.regs .rip = 0x401000 &&
      ((bare c c.image).step Demo.isa).went.any fun u => u.regs .rip = 0x401005)
    (by decide +kernel)
  obtain ⟨running, c, live, one, saved, hc⟩ := checked_child hs
  obtain ⟨hrip, hstep⟩ := Bool.and_eq_true_iff.mp hc
  have inst := demo_instrumented hw live one saved
  have clear : Clear Demo.isa (w.dbg.bp.map (·.addr)) (bare c c.image) := by
    rw [one]
    exact demo_clear fun _ => (of_decide_eq_true hrip).symm
  obtain ⟨u, on, hu⟩ := (Option.any_eq_true _ _).mp hstep
  have hu : u.regs .rip = 0x401005 := of_decide_eq_true hu
  have free : ∀ b ∈ w.dbg.bp, b.addr ≠ u.regs .rip - 1 := by
    intro b hb he
    have hm : b.addr ∈ w.dbg.bp.map (·.addr) := List.mem_map.mpr ⟨b, hb, rfl⟩
    rw [one, he, hu] at hm
    revert hm
    decide
  have found : lookup Builtin.all "si" = some .si := by decide
  obtain ⟨w', c', hran, hlive, hregs, _, hmem⟩ := (si_steps_iff Demo.isa 64
    (Demo.services Demo.static) w c live running c.image inst "si" [] found clear u
    (went_eq_some.mp on)).mpr free
  refine ⟨w, w', c', hran, hlive, by rw [hregs, hu], ?_⟩
  rw [hmem, one, overlay_mem (List.mem_singleton.mpr rfl)]

/-- The step over a breakpoint on an instruction of one byte ends where it began: the new
`rip` is one byte behind the breakpoint, and `reset_rip` takes it for a trap. -/
theorem si_rewinds_step : ∃ (w w' : World (Machine Demo.Hidden)) (c c' u' : Child Demo.Hidden),
    Live w c ∧ w.dbg.stat = .running ∧ Instrumented w.dbg c.image c ∧
      Clear Demo.isa (w.dbg.bp.map (·.addr)) (bare c c.image) ∧
      (bare c c.image).step Demo.isa = .on u' ∧
      handle (Demo.host Demo.static) (.line ["si"]) w = .ok () w' ∧ Live w' c' ∧
      c'.regs ≠ u'.regs := by
  obtain ⟨w, hw, hs⟩ := exists_reached (handle (Demo.host Demo.static))
    (fun w i w' => checkUndisturbed (Demo.host Demo.static) w i w')
    (World.init (Demo.machine (Demo.program Demo.nops)))
    [.line ["load", "demo"], .line ["b", "0x401000"], .line ["start"]]
    (fun w => checkChild w 0x401000 fun c => c.regs .rip = 0x401000 &&
      ((bare c c.image).step Demo.isa).went.any fun u =>
        (returned (handle (Demo.host Demo.static) (.line ["si"]) w)).any fun w' =>
          (w'.os.child w'.dbg.pid).any fun c' => c'.regs .rip ≠ u.regs .rip) (by decide +kernel)
  obtain ⟨running, c, live, one, saved, hc⟩ := checked_child hs
  obtain ⟨hrip, hstep⟩ := Bool.and_eq_true_iff.mp hc
  have clear : Clear Demo.isa (w.dbg.bp.map (·.addr)) (bare c c.image) := by
    rw [one]
    exact demo_clear fun _ => (of_decide_eq_true hrip).symm
  obtain ⟨u, on, hstep⟩ := (Option.any_eq_true _ _).mp hstep
  obtain ⟨w', hend, hstep⟩ := (Option.any_eq_true _ _).mp hstep
  obtain ⟨_, hran⟩ := returned_eq_some.mp hend
  obtain ⟨c', hc', hne⟩ := (Option.any_eq_true _ _).mp hstep
  have hne : c'.regs .rip ≠ u.regs .rip := of_decide_eq_true hne
  refine ⟨w, w', c, c', u, live, running, demo_instrumented hw live one saved, clear,
    went_eq_some.mp on, hran, live_of_child hc', ?_⟩
  intro he
  exact hne (congrFun he .rip)

/-- `cont` on an instrumented child. `path` is the program's own run from here; for `k`
instructions it keeps clear of the breakpoints and comes to none, and its first instruction
does not end one byte behind one. If it is then at a breakpoint, `cont` leaves that state
with the breakpoints over it; if it exits instead, `cont` leaves LOADED. -/
theorem cont_reaches_breakpoint {η : Type} (T : Isa η) (B : Host (Machine η))
    (w : World (Machine η)) (c : Child η) (live : Live w c) (running : w.dbg.stat = .running)
    (text : TextInv w.dbg) (image : Memory 64) (inst : Instrumented w.dbg image c)
    (word : String) (argv : List String) (found : lookup B.list word = some .cont)
    (path : Nat → Child η) (k : Nat) (start : path 0 = bare c image) (moves : 1 ≤ k)
    (steps : ∀ i < k, (path i).step T = .on (path (i + 1)))
    (clear : ∀ i < k, Clear T (w.dbg.bp.map (·.addr)) (path i))
    (free : ∀ i < k, 0 < i → (path i).regs .rip ∉ w.dbg.bp.map (·.addr))
    (first : ∀ b ∈ w.dbg.bp, (path 1).regs .rip ≠ b.addr + 1) :
    ((path k).regs .rip ∈ w.dbg.bp.map (·.addr) → ∀ fuel ≥ k, ∃ w' c',
        handle (machineHost T fuel B) (.line (word :: argv)) w = .ok () w' ∧
        w'.dbg.stat = .running ∧ w'.dbg.bp = w.dbg.bp ∧ Live w' c' ∧
        c'.regs = (path k).regs ∧ c'.hidden = (path k).hidden ∧
        c'.mem = overlay (path k).mem (w.dbg.bp.map (·.addr)) 0xcc) ∧
      ((path k).regs .rip ∉ w.dbg.bp.map (·.addr) → Clear T (w.dbg.bp.map (·.addr)) (path k) →
        ∀ code, (path k).step T = .halted (.exit code) → ∀ fuel ≥ k, ∃ w',
          handle (machineHost T fuel B) (.line (word :: argv)) w = .ok () w' ∧
          w'.dbg.stat = .loaded) := by
  obtain ⟨m, hk⟩ := Nat.exists_eq_add_of_le moves
  have off : (path 1).regs .rip - 1 ∉ w.dbg.bp.map (·.addr) := by
    intro hm
    obtain ⟨b, hb, he⟩ := List.mem_map.mp hm
    exact first b hb (by simp [he])
  have hclear := clear 0 (by omega)
  have hon := steps 0 (by omega)
  rw [start] at hclear hon
  obtain ⟨c₁, hover, hcont⟩ := cont_runs live running inst found argv hclear hon off
  obtain ⟨c', hend, hrun⟩ := hover.follow (n := m) fun j hj hlt =>
    ⟨steps j (by omega), clear j (by omega), free j (by omega) hj⟩
  rw [← hk] at hend
  refine ⟨?_, ?_⟩
  · intro hat fuel hfuel
    obtain ⟨x, hx⟩ := Nat.exists_eq_add_of_le hfuel
    have hstop : c₁.run T fuel =
        some (.stop SIGTRAP { c' with regs := c'.regs.set .rip (c'.regs .rip + 1) }) := by
      rw [show fuel = m + (x + 1) by omega, hrun, Child.run, hend.trap hat]
    obtain ⟨w₁, w', hran, hd, hp, hw⟩ := hcont fuel _ hstop (by simp)
    have hback : rewind w.dbg { c' with regs := c'.regs.set .rip (c'.regs .rip + 1) } = c' := by
      rw [rewind_on]
      · simp
      · simpa [hend.regs] using hat
    have hlive := hw.live hp
    rw [hback] at hlive
    refine ⟨w', c', hran, ?_, ?_, hlive, hend.regs, hend.hidden, hend.mem⟩
    · rw [hw.stopped_record, hd]
      exact running
    · rw [hw.stopped_record, hd]
  · intro hat hlast code hexit fuel hfuel
    obtain ⟨x, hx⟩ := Nat.exists_eq_add_of_le hfuel
    have hstop : c₁.run T fuel = some (.exit code) := by
      rw [show fuel = m + (x + 1) by omega, hrun, Child.run, hend.exit hlast hat hexit]
    obtain ⟨w₁, w', hran, hd, hp, hw⟩ := hcont fuel _ hstop (fun _ _ => text running)
    refine ⟨w', hran, ?_⟩
    cases hw with
    | exit code w' dbg os calls => exact stopRecord_loaded (by rw [hd]; exact running) dbg

/-- The program's own run from `u`; it stands still once it halts. -/
def ownRun {η : Type} (T : Isa η) (u : Child η) : Nat → Child η
  | 0 => u
  | n + 1 =>
    match (ownRun T u n).step T with
    | .on u' => u'
    | .halted _ => ownRun T u n

theorem ownRun_step {η : Type} {T : Isa η} {u : Child η} {n : Nat}
    (h : ((ownRun T u n).step T).went.isSome = true) :
    (ownRun T u n).step T = .on (ownRun T u (n + 1)) := by
  obtain ⟨u', h⟩ := Option.isSome_iff_exists.mp h
  have on := went_eq_some.mp h
  simp only [ownRun, on]

/-- `cont` to a breakpoint on the third of a row of instructions of one byte. -/
theorem cont_reaches_breakpoint_demo : ∃ (w w' : World (Machine Demo.Hidden))
    (c' : Child Demo.Hidden), handle (Demo.host Demo.static) (.line ["cont"]) w = .ok () w' ∧
      Live w' c' ∧ c'.regs .rip = 0x401002 := by
  obtain ⟨w, hw, hs⟩ := exists_reached (handle (Demo.host Demo.static))
    (fun w i w' => checkUndisturbed (Demo.host Demo.static) w i w')
    (World.init (Demo.machine (Demo.program Demo.nops)))
    [.line ["load", "demo"], .line ["b", "0x401002"], .line ["start"]]
    (fun w => checkChild w 0x401002 fun c =>
      let path := ownRun Demo.isa (bare c c.image)
      (List.range 2).all (fun i => (path i).mem ((path i).regs .rip) = 0x90 &&
        (path i).regs .rip = 0x401000 + BitVec.ofNat 64 i && ((path i).step Demo.isa).went.isSome) &&
      (path 2).regs .rip = 0x401002) (by decide +kernel)
  obtain ⟨running, c, live, one, saved, hc⟩ := checked_child hs
  have inst := demo_instrumented hw live one saved
  obtain ⟨hsteps, hend⟩ := Bool.and_eq_true_iff.mp hc
  have hend : (ownRun Demo.isa (bare c c.image) 2).regs .rip = 0x401002 := of_decide_eq_true hend
  have hall : ∀ i < 2, (ownRun Demo.isa (bare c c.image) i).mem
        ((ownRun Demo.isa (bare c c.image) i).regs .rip) = 0x90 ∧
      (ownRun Demo.isa (bare c c.image) i).regs .rip = 0x401000 + BitVec.ofNat 64 i ∧
      (ownRun Demo.isa (bare c c.image) i).step Demo.isa =
        .on (ownRun Demo.isa (bare c c.image) (i + 1)) := by
    intro i hi
    have hi := List.all_eq_true.mp hsteps i (List.mem_range.mpr hi)
    obtain ⟨hi, hstep⟩ := Bool.and_eq_true_iff.mp hi
    obtain ⟨hnop, hrip⟩ := Bool.and_eq_true_iff.mp hi
    exact ⟨of_decide_eq_true hnop, of_decide_eq_true hrip, ownRun_step hstep⟩
  have apart : ∀ i < 2, (0x401002 : Word) ≠ 0x401000 + BitVec.ofNat 64 i := by decide
  have clear : ∀ i < 2, Clear Demo.isa (w.dbg.bp.map (·.addr)) (ownRun Demo.isa (bare c c.image) i) := by
    intro i hi
    obtain ⟨hnop, _, _⟩ := hall i hi
    rw [one]
    apply demo_clear
    intro ho
    have hl : Demo.length ((ownRun Demo.isa (bare c c.image) i).mem
        ((ownRun Demo.isa (bare c c.image) i).regs .rip)) = 1 := by rw [hnop]; rfl
    exact eq_of_offset_zero (Nat.lt_one_iff.mp (hl ▸ ho))
  have free : ∀ i < 2, 0 < i →
      (ownRun Demo.isa (bare c c.image) i).regs .rip ∉ w.dbg.bp.map (·.addr) := by
    intro i hi _ hm
    rw [one, List.mem_singleton, (hall i hi).2.1] at hm
    exact apart i hi hm.symm
  have first : ∀ b ∈ w.dbg.bp, (ownRun Demo.isa (bare c c.image) 1).regs .rip ≠ b.addr + 1 := by
    intro b hb he
    have hm : b.addr ∈ w.dbg.bp.map (·.addr) := List.mem_map.mpr ⟨b, hb, rfl⟩
    rw [one, List.mem_singleton] at hm
    rw [(hall 1 (by omega)).2.1, hm] at he
    revert he
    decide
  have found : lookup Builtin.all "cont" = some .cont := by decide
  have text : TextInv w.dbg := reached_text hw
  obtain ⟨hstop, _⟩ := cont_reaches_breakpoint Demo.isa (Demo.services Demo.static) w c live running
    text c.image inst "cont" [] found (ownRun Demo.isa (bare c c.image)) 2 rfl (by omega)
    (fun i hi => (hall i hi).2.2) clear free first
  have hat : (ownRun Demo.isa (bare c c.image) 2).regs .rip ∈ w.dbg.bp.map (·.addr) := by
    rw [one, hend]
    exact List.mem_singleton.mpr rfl
  obtain ⟨w', c', hran, _, _, hlive, hregs, _, _⟩ := hstop hat 64 (by omega)
  exact ⟨w, w', c', hran, hlive, by rw [hregs, hend]⟩

end UnixProgramming.Sdb.Proofs
