import UnixProgramming.Sdb.Proofs.Views

namespace UnixProgramming.Sdb.Proofs
open Lib

section Starts
variable {η : Type} {T : Isa η} {fuel : Nat} {B : Host (Machine η)} {w w' w₁ : World (Machine η)}
  {c : Child η}

/-- Each word `cmd_start` saves is the program's own. -/
theorem rebased_saved {base : Word} {l : List BreakPt} (m : Memory 64)
    (apart : (l.map (·.addr + base)).Pairwise Apart) :
    ∀ b ∈ rebased base l m, b.code = load 8 m b.addr := by
  induction l generalizing m with
  | nil => simp [rebased]
  | cons a rest ih =>
    obtain ⟨far, hrest⟩ := List.pairwise_cons.mp apart
    intro b hb
    rcases List.mem_cons.mp hb with he | hb
    · rw [he]
    · have hm : b.addr ∈ rest.map (·.addr + base) :=
        rebased_addrs base rest _ ▸ List.mem_map.mpr ⟨b, hb, rfl⟩
      rw [ih _ hrest b hb, arm_eq]
      apply load_overlay
      intro x hx
      rw [List.mem_singleton.mp hx]
      exact (far _ hm).2

/-- Whatever becomes of the process, `start` means what its user asks for. -/
theorem Sound.started_next (h : Sound T w) (loaded : w.dbg.stat = .loaded)
    (started : Started T B w w') : View.Next T (.start (found T B w)) (view w) none (view w') := by
  have gone := h.tracked.gone_of (by simp [loaded])
  have hbase := h.base (by simp [loaded])
  cases started with
  | failed w' spawn dbg os calls =>
    have hf : found T B w = none := by simp [found, spawn]
    have hv : view w' = view w := view_childless (by rw [dbg]) (by rw [dbg]) (by rw [dbg]) gone
      (by rw [os]; exact gone)
    rw [hf, hv]
    exact .failed _
  | ended pid fate st w' spawn dead dbg os calls =>
    have hf : found T B w = none := by
      unfold found
      rw [spawn]
      cases fate with
      | ready regs hidden image => exact absurd rfl (dead regs hidden image)
      | exited code => rfl
      | killed s dumped => rfl
    have hv : view w' = view w := view_childless (by rw [dbg]) (by rw [dbg]) (by rw [dbg]) gone
      (by rw [os])
    rw [hf, hv]
    exact .failed _
  | ready pid regs hidden image ptext base w' spawn text bias dbg os calls =>
    have hlive : Live w' { fresh regs hidden image with
        mem := overlay image (w.dbg.bp.map (·.addr + base)) 0xcc } :=
      ⟨by rw [os]; rfl, by rw [dbg, os]; rfl⟩
    have hbp : w'.dbg.bp = rebased base w.dbg.bp image := by rw [dbg]
    have hf : found T B w = some (base, ⟨regs, hidden, image⟩) := by simp [found, spawn, text, bias]
    have hv : view w' =
        { view w with stat := .running, base := base, prog := some ⟨regs, hidden, image⟩ } := by
      apply View.ext
      · show w'.dbg.stat = .running
        rw [dbg]
      · show w'.dbg.bp.map (fun b => b.addr - w'.dbg.base) =
          w.dbg.bp.map fun b => b.addr - w.dbg.base
        have hb : w'.dbg.base = base := by rw [dbg]
        have ha := congrArg (List.map (· - base)) (rebased_addrs base w.dbg.bp image)
        rw [List.map_map, List.map_map] at ha
        rw [hbp, hb, hbase]
        simpa [Function.comp_def] using ha
      · show w'.dbg.base = base
        rw [dbg]
      · exact hlive.view
    rw [hf, hv]
    exact .start _ _ _

theorem Started.covered (started : Started T B w w') (gone : w.os.proc = none)
    (tame : (view w').Tame T) : ∀ c, Live w' c → Instrumented w'.dbg c.image c := by
  intro c live
  cases started with
  | failed w' spawn dbg os calls => exact absurd (by rw [os]; exact gone) live.not_gone
  | ended pid fate st w' spawn dead dbg os calls => exact absurd (by rw [os]) live.not_gone
  | ready pid regs hidden image ptext base w' spawn text bias dbg os calls =>
    have hp := live.proc
    rw [os] at hp
    cases hp
    have hbp : w'.dbg.bp = rebased base w.dbg.bp image := by rw [dbg]
    have apart := tame.apart
    rw [view_stops, hbp, rebased_addrs] at apart
    refine ⟨?_, ?_, ?_⟩
    · rw [hbp, rebased_addrs]
      rfl
    · rw [hbp]
      exact rebased_saved image apart
    · rw [hbp, rebased_addrs]
      exact apart

theorem Sound.started (h : Sound T w) (loaded : w.dbg.stat = .loaded) (started : Started T B w w')
    (tame : (view w').Tame T) : Meant T (.start (found T B w)) w w' where
  next := ⟨none, h.started_next loaded started, by simp⟩
  covered := started.covered (h.tracked.gone_of (by simp [loaded])) tame

theorem Sound.resumed (h : Sound T w) (live : Live w c) (running : w.dbg.stat = .running)
    (ran : (c.regs .rip ∈ w.dbg.bp.map (·.addr) ∧ core w' = core w) ∨
      (c.regs .rip ∉ w.dbg.bp.map (·.addr) ∧ Conted T fuel w c w')) : Meant T .resume w w' := by
  rcases ran with ⟨on, same⟩ | ⟨off, conted⟩
  · have hm := calm_meant h (calm_of_core same)
    constructor
    · refine ⟨none, ?_, by simp⟩
      rw [view_calm (calm_of_core same)]
      refine .stays _ _ live.view ?_
      rw [view_stops]
      exact on
    · exact hm.covered
  · have hm := h.cont live running conted
    obtain ⟨code, hnext, hcode⟩ := hm.next
    refine ⟨⟨code, .resume _ _ _ _ live.view ?_ hnext, hcode⟩, hm.covered⟩
    rw [view_stops]
    exact off

theorem start_unreported {v v₁ : View η} {l : Option (Word × Prog η)} {code : Option Byte}
    (h : View.Next T (.start l) v code v₁) : code = none := by
  cases h <;> rfl

/-- `run` in LOADED: `start`, and then on to the first breakpoint or the end. -/
theorem Meant.ran (started : Meant T (.start (found T B w)) w w₁)
    (resumed : Meant T .resume w₁ w') : Meant T (.run (found T B w)) w w' := by
  obtain ⟨code, hstart, _⟩ := started.next
  obtain ⟨code', hnext, hcode⟩ := resumed.next
  refine ⟨⟨code', ?_, hcode⟩, resumed.covered⟩
  rw [start_unreported hstart] at hstart
  exact .run _ _ _ _ _ hstart hnext

end Starts

section Commands
variable {η : Type} {T : Isa η} {fuel : Nat} {B : Host (Machine η)} {w w' : World (Machine η)}
  {i : Input (Machine η)} {argv : List String}

end Commands

section Demo
variable {p : Prog Demo.Hidden} {s : List Word} {w w' : World (Machine Demo.Hidden)}
  {i : Input (Machine Demo.Hidden)} {B : Host (Machine Demo.Hidden)}

instance (a b : Word) : Decidable (8 ≤ offset a b ∧ 8 ≤ offset b a) :=
  inferInstanceAs (Decidable (_ ∧ _))

end Demo

end UnixProgramming.Sdb.Proofs
