import UnixProgramming.Sdb.Proofs.Stepping
import UnixProgramming.Sdb.View

namespace UnixProgramming.Sdb.Proofs
open Lib

section Programs
variable {η : Type} {T : Isa η} {p p' q : Prog η} {s t : List Word} {c c' : Child η}

theorem next_iff : p.next T = some p' ↔ p.mem (p.regs .rip) ≠ 0xcc ∧
    ∃ regs hidden wrote, T.exec p.regs p.hidden p.mem = .next regs hidden wrote ∧
      p' = ⟨regs, hidden, putAll wrote p.mem⟩ := by
  unfold Prog.next
  by_cases hm : p.mem (p.regs .rip) = 0xcc
  · simp [hm]
  · rw [if_neg hm]
    cases he : T.exec p.regs p.hidden p.mem with
    | next regs hidden wrote =>
      constructor
      · intro h
        exact ⟨hm, regs, hidden, wrote, rfl, (Option.some.inj h).symm⟩
      · intro h
        obtain ⟨_, _, _, _, hx, hp⟩ := h
        cases hx
        rw [hp]
    | signal sig regs hidden wrote => simp
    | exit code => simp
    | killed sig core => simp

theorem exits_iff {code : Byte} : p.exits T = some code ↔ p.mem (p.regs .rip) ≠ 0xcc ∧
    T.exec p.regs p.hidden p.mem = .exit code := by
  unfold Prog.exits
  by_cases hm : p.mem (p.regs .rip) = 0xcc
  · simp [hm]
  · rw [if_neg hm]
    cases he : T.exec p.regs p.hidden p.mem with
    | exit code' =>
      constructor
      · intro h
        rw [Option.some.inj h]
        exact ⟨hm, rfl⟩
      · intro h
        cases h.2
        rfl
    | next regs hidden wrote => simp
    | signal sig regs hidden wrote => simp
    | killed sig core => simp

theorem after_succ {n : Nat} (h : p.next T = some p') : p.after T (n + 1) = p'.after T n := by
  rw [Prog.after, h, Option.bind_some]

theorem after_add (m n : Nat) : p.after T (m + n) = (p.after T m).bind (Prog.after T n) := by
  induction m generalizing p with
  | zero => rw [Nat.zero_add, Prog.after, Option.bind_some]
  | succ m ih =>
    rw [Nat.add_right_comm, Prog.after, Prog.after]
    cases p.next T with
    | none => rfl
    | some p' =>
      rw [Option.bind_some, Option.bind_some]
      exact ih

theorem tame_go (h : p.Tame T s) {n : Nat} (hq : p.after T n = some q) : q.Tame T s where
  unsignalled := by
    intro m r hr
    apply h.unsignalled (n + m)
    rw [after_add, hq, Option.bind_some, hr]
  harmless := by
    intro m r hr
    apply h.harmless (n + m)
    rw [after_add, hq, Option.bind_some, hr]

theorem tame_next (h : p.Tame T s) (step : p.next T = some p') : p'.Tame T s := by
  apply tame_go h (n := 1)
  rw [after_succ step]
  rfl

/-- A tame program goes on or ends. -/
theorem tame_goes (h : p.Tame T s) :
    (∃ p', p.next T = some p') ∨ ∃ code, p.exits T = some code := by
  rcases h.unsignalled 0 p rfl with hs | hs
  · exact .inl (Option.isSome_iff_exists.mp hs)
  · exact .inr (Option.isSome_iff_exists.mp hs)

theorem tame_here (h : p.Tame T s) {a : Word} (ha : a ∈ s) : p.Harmless T a :=
  h.harmless 0 p rfl a ha

/-- The child that runs `p` and nothing else. -/
def solo (p : Prog η) : Child η := fresh p.regs p.hidden p.mem

/-- `c` is the program `p` with `0xcc` over the bytes at `s`. -/
structure Masks (s : List Word) (c : Child η) (p : Prog η) : Prop where
  cover : Over s c (solo p)
  image : c.image = p.mem

theorem Masks.prog (h : Masks s c p) : c.prog = p := by
  have hr := h.cover.regs
  have hh := h.cover.hidden
  unfold Child.prog
  rw [hr, hh, h.image]
  rfl

theorem tame_clear (h : p.Tame T t) (sub : s ⊆ t) : Clear T s (solo p) where
  uncovered := fun _ ha => (tame_here h (sub ha)).uncovered
  unread := fun _ ha => (tame_here h (sub ha)).unread
  unwritten := by
    intro a ha regs hidden wrote he
    exact (tame_here h (sub ha)).unwritten regs hidden wrote he a (by simp)

/-- Away from the covered bytes the child executes the program's next instruction. -/
theorem Masks.next (h : Masks s c p) (tame : p.Tame T t) (sub : s ⊆ t) (off : p.regs .rip ∉ s)
    (step : p.next T = some p') : ∃ c', c.step T = .on c' ∧ Masks s c' p' := by
  obtain ⟨hbyte, regs, hidden, wrote, he, hp⟩ := next_iff.mp step
  have clear := tame_clear tame sub
  have hc : T.exec c.regs c.hidden c.mem = .next regs hidden wrote :=
    (h.cover.exec clear off).trans he
  have hne : c.mem (c.regs .rip) ≠ 0xcc := by
    rw [h.cover.byte off]
    exact hbyte
  refine ⟨c.after regs hidden wrote, step_on_iff.mpr ⟨hne, regs, hidden, wrote, hc, rfl⟩, ?_, ?_⟩
  · subst hp
    refine ⟨rfl, rfl, ?_⟩
    have hnone : ∀ a ∈ s, wrote a = none := fun a ha => clear.unwritten a ha _ _ _ he
    have hm : c.mem = overlay p.mem s 0xcc := h.cover.mem
    unfold Child.after solo fresh
    dsimp only
    rw [hm, putAll_overlay hnone]
  · subst hp
    unfold Child.after
    dsimp only
    rw [h.image]

theorem Masks.exits (h : Masks s c p) (tame : p.Tame T t) (sub : s ⊆ t) (off : p.regs .rip ∉ s)
    {code : Byte} (ends : p.exits T = some code) : c.step T = .halted (.exit code) := by
  obtain ⟨hbyte, he⟩ := exits_iff.mp ends
  refine step_exit_iff.mpr ⟨?_, (h.cover.exec (tame_clear tame sub) off).trans he⟩
  rw [h.cover.byte off]
  exact hbyte

/-- How a child that masks a program comes to a halt where the program comes to `r`. -/
def Halts (s : List Word) (e : Halted η) : Prog η ⊕ Byte → Prop
  | .inl q => ∃ c', Masks s c' q ∧
      e = .stop SIGTRAP { c' with regs := c'.regs.set .rip (c'.regs .rip + 1) }
  | .inr code => e = .exit code

/-- A resumed child halts where the program comes to a stop or to its end. -/
theorem Masks.run (h : Masks s c p) (tame : p.Tame T s) {n : Nat} {e : Halted η}
    (ran : c.run T n = some e) : ∃ r, p.Until T s r ∧ Halts s e r := by
  induction n generalizing c p with
  | zero => cases ran
  | succ n ih =>
    rw [Child.run] at ran
    by_cases on : p.regs .rip ∈ s
    · rw [h.cover.trap on] at ran
      cases ran
      exact ⟨.inl p, .stop p on, c, h, rfl⟩
    · rcases tame_goes tame with ⟨p', step⟩ | ⟨code, ends⟩
      · obtain ⟨c', hstep, h'⟩ := h.next tame (List.Subset.refl s) on step
        rw [hstep] at ran
        obtain ⟨r, hr, he⟩ := ih h' (tame_next tame step) ran
        exact ⟨r, .next p p' r on step hr, he⟩
      · rw [h.exits tame (List.Subset.refl s) on ends] at ran
        cases ran
        exact ⟨.inr code, .exit p code on ends, rfl⟩

/-- The program writes none of the eight bytes from a stop on. -/
theorem load_next (tame : p.Tame T s) (step : p.next T = some p') {a : Word} (ha : a ∈ s) :
    load 8 p'.mem a = load 8 p.mem a := by
  obtain ⟨_, regs, hidden, wrote, he, hp⟩ := next_iff.mp step
  subst hp
  apply load_congr
  intro i hi
  have hnone := (tame_here tame ha).unwritten regs hidden wrote he (a + BitVec.ofNat 64 i)
    (by rw [offset_add _ (by omega)]; exact hi)
  dsimp only
  rw [putAll, hnone, Option.getD_none]

theorem load_until {r : Prog η ⊕ Byte} (goes : p.Until T s r) (tame : p.Tame T s) {a : Word}
    (ha : a ∈ s) : ∀ q, r = .inl q → load 8 q.mem a = load 8 p.mem a := by
  induction goes with
  | stop p on =>
    intro q hq
    cases hq
    rfl
  | exit p code off ends =>
    intro q hq
    cases hq
  | next p p' r off step rest ih =>
    intro q hq
    exact (ih (tame_next tame step) q hq).trans (load_next tame step ha)

theorem until_on {r : Prog η ⊕ Byte} (goes : p.Until T s r) :
    ∀ q, r = .inl q → q.regs .rip ∈ s := by
  induction goes with
  | stop p on =>
    intro q hq
    cases hq
    exact on
  | exit p code off ends =>
    intro q hq
    cases hq
  | next p p' r off step rest ih => exact ih

end Programs

section Covered
variable {η : Type} {T : Isa η} {d : Debugger} {c c₁ : Child η} {p p' q : Prog η}

theorem Instrumented.masks (h : Instrumented d c.image c) :
    Masks ((d.bp.map (·.addr)).filter (· ≠ c.regs .rip)) (lifted d c) c.prog where
  cover := by
    have hl := h.armed.lifted_mem fun b hu => h.intact (underRip_some hu).1
    exact ⟨lifted_regs d c, lifted_hidden d c, hl⟩
  image := lifted_image d c

theorem Masks.instrumented (h : Masks (d.bp.map (·.addr)) c p)
    (saved : ∀ b ∈ d.bp, b.code = load 8 p.mem b.addr)
    (apart : (d.bp.map (·.addr)).Pairwise Apart) : Instrumented d c.image c where
  mem := by
    rw [h.image]
    exact h.cover.mem
  saved := by
    rw [h.image]
    exact saved
  apart := apart

theorem Masks.rearm (h : Masks ((d.bp.map (·.addr)).filter (· ≠ c.regs .rip)) c₁ p') :
    Masks (d.bp.map (·.addr)) (rearmed d (c.regs .rip) c₁) p' where
  cover := h.cover.rearm
  image := (rearmed_image d _ c₁).trans h.image

/-- With its own breakpoint lifted the child executes the program's next instruction, and
`reset_rip` leaves it alone. -/
theorem Instrumented.next (fuel : Nat) (h : Instrumented d c.image c)
    (tame : c.prog.Tame T (d.bp.map (·.addr))) (step : c.prog.next T = some p') :
    ∃ c₁, (lifted d c).go T fuel .singlestep = some (.stop SIGTRAP c₁) ∧
      Masks (d.bp.map (·.addr)) (rearmed d (c.regs .rip) (rewind d c₁)) p' := by
  have off : c.prog.regs .rip ∉ (d.bp.map (·.addr)).filter (· ≠ c.regs .rip) := by
    intro hm
    have hne := (List.mem_filter.mp hm).2
    simp [Child.prog] at hne
  obtain ⟨c₁, hstep, hm⟩ := h.masks.next tame (List.filter_subset_self _) off step
  refine ⟨c₁, by simp [Child.go, hstep], ?_⟩
  have hr : rewind d c₁ = c₁ := by
    apply rewind_off
    intro hin
    have hne := (tame_here tame hin).unlike p' step
    rw [hm.cover.regs] at hne
    simp [solo, fresh] at hne
  rw [hr]
  exact hm.rearm

theorem Instrumented.exits (fuel : Nat) (h : Instrumented d c.image c)
    (tame : c.prog.Tame T (d.bp.map (·.addr))) {code : Byte} (ends : c.prog.exits T = some code) :
    (lifted d c).go T fuel .singlestep = some (.exit code) := by
  have off : c.prog.regs .rip ∉ (d.bp.map (·.addr)).filter (· ≠ c.regs .rip) := by
    intro hm
    have hne := (List.mem_filter.mp hm).2
    simp [Child.prog] at hne
  have hstep := h.masks.exits tame (List.filter_subset_self _) off ends
  simp [Child.go, hstep]

/-- A child that has trapped on a breakpoint is put back on it. -/
theorem Masks.back (h : Masks (d.bp.map (·.addr)) c q) (on : q.regs .rip ∈ d.bp.map (·.addr)) :
    rewind d { c with regs := c.regs.set .rip (c.regs .rip + 1) } = c := by
  rw [rewind_on]
  · simp
  · have hr : c.regs .rip = q.regs .rip := by
      rw [h.cover.regs]
      rfl
    simpa [hr] using on

end Covered

end UnixProgramming.Sdb.Proofs
