import UnixProgramming.Libmini.Proofs.Frames
import UnixProgramming.Libmini.Proofs.Sigaction

namespace UnixProgramming.Libmini.Proofs
open Lib

/-! ## Threads under signals -/

section Plays
variable {ℓ : Type} (M : Image ℓ) (K : SigKernel) (own : Word → Prop) (restorer : Word)

/-- An instruction of code that runs under `top` and keeps data of its own elsewhere. It sets
actions through `sigaction` only. -/
structure Decent (top : Nat) (t t' : Thread) : Prop where
  moves : M.Moves K t t'
  mem : ∀ a, ¬own a → top ≤ a.toNat → t'.cpu.mem a = t.cpu.mem a
  armed : Armed restorer t.actions → Armed restorer t'.actions

/-- `t` comes to `t'` by `n` instructions of code that runs under `top`. Signals may come in
between: the handler of one plays until it has returned to its restorer, and two instructions on. -/
inductive Plays : Nat → Nat → Thread → Thread → Prop
  | refl (top : Nat) (t : Thread) : Plays top 0 t t
  | instr {top n : Nat} {t t₁ t' : Thread} (h : Decent M K own restorer top t t₁)
      (rest : Plays top n t₁ t') : Plays top (n + 1) t t'
  | signal {top n k : Nat} {sig : CInt} {frame : Word} {t t₁ t₂ t₃ t' : Thread}
      (under : (t.cpu.regs .rsp).toNat ≤ top + 8) (h : K.Delivers t sig frame t₁)
      (clear : ∀ a, InFrame t frame a → ¬own a)
      (handler : Plays frame.toNat k t₁ t₂)
      (ret : t₂.cpu.rip = (t.actions sig).sa_restorer) (rsp : t₂.cpu.regs .rsp = frame + 8)
      (restored : Plays frame.toNat 2 t₂ t₃) (rest : Plays top n t₃ t') : Plays top n t t'

/-- Nothing has happened that the code can tell by its registers, its stack or data that is not
`own`. -/
structure Quiet (t t' : Thread) : Prop where
  context : t'.cpu.context = t.cpu.context
  mem : ∀ a : Word, ¬own a → (t.cpu.regs .rsp).toNat ≤ a.toNat + redZone →
    t'.cpu.mem a = t.cpu.mem a
  armed : Armed restorer t.actions → Armed restorer t'.actions

/-- `t` comes to `t'` by `n` instructions, with nothing but quiet changes in between. -/
inductive Goes (top : Nat) : Nat → Thread → Thread → Prop
  | refl (t : Thread) : Goes top 0 t t
  | instr {n : Nat} {t t₁ t' : Thread} (h : Decent M K own restorer top t t₁)
      (rest : Goes top n t₁ t') : Goes top (n + 1) t t'
  | quiet {n : Nat} {t t₁ t' : Thread} (under : (t.cpu.regs .rsp).toNat ≤ top + 8)
      (h : Quiet own restorer t t₁) (rest : Goes top n t₁ t') : Goes top n t t'

end Plays

/-! ## One instruction -/

section Instr
variable {ℓ : Type} {M : Image ℓ} {K : SigKernel} {t t' : Thread} {next : Word}

theorem moves_plain {i : Instr ℓ} (hf : M.fetch t.cpu.rip = some (i, next)) (hi : i ≠ .syscall) :
    M.Moves K t t' ↔ t' = { t with cpu := M.exec t.cpu next i } := by
  unfold Image.Moves
  rw [hf]
  cases i with
  | syscall => exact absurd rfl hi
  | _ => rfl

theorem moves_syscall (hf : M.fetch t.cpu.rip = some (.syscall, next)) :
    M.Moves K t t' ↔ K.Returns t next t' := by
  unfold Image.Moves
  rw [hf]

/-- Arithmetic changes no flag that a signal frame does not give back. -/
theorem cmpFlags_fixed (a b old : Word) :
    cmpFlags a b old &&& ~~~FIX_EFLAGS = old &&& ~~~FIX_EFLAGS := by
  have status : ~~~(0x8d5 : Word) &&& ~~~FIX_EFLAGS = ~~~FIX_EFLAGS := by decide
  have af : (0x10 : Word) &&& ~~~FIX_EFLAGS = 0 := by decide
  have flag (p : Prop) [Decidable p] {u : Word} (h : u &&& ~~~FIX_EFLAGS = 0) :
      (if p then u else 0) &&& ~~~FIX_EFLAGS = 0 := by
    split
    · exact h
    · rfl
  simp only [cmpFlags, BitVec.and_or_distrib_right, BitVec.and_assoc, status, af]
  rw [flag _ (by decide), flag _ (by decide), flag _ (by decide), flag _ (by decide),
    flag _ (by decide)]
  simp

theorem exec_rflags (c : Cpu) (next : Word) (i : Instr ℓ) :
    (M.exec c next i).rflags &&& ~~~FIX_EFLAGS = c.rflags &&& ~~~FIX_EFLAGS := by
  cases i with
  | op o =>
    cases o with
    | cmp a b => exact cmpFlags_fixed (c.regs a) b c.rflags
    | _ => rfl
  | _ => rfl

theorem moves_rflags (laws : K.Lawful) (h : M.Moves K t t') :
    t'.cpu.rflags &&& ~~~FIX_EFLAGS = t.cpu.rflags &&& ~~~FIX_EFLAGS := by
  unfold Image.Moves at h
  split at h
  · exact h.elim
  · exact laws.rflags h
  · rw [h]
    exact exec_rflags t.cpu _ _

end Instr

/-! ## Quiet changes -/

section Goes
variable {ℓ : Type} {M : Image ℓ} {K : SigKernel} {own : Word → Prop} {restorer : Word}
  {top n : Nat} {t t₁ t₂ t' : Thread}

theorem Quiet.refl (t : Thread) : Quiet own restorer t t where
  context := rfl
  mem _ _ _ := rfl
  armed := id

theorem Quiet.regs (h : Quiet own restorer t t') : t'.cpu.regs = t.cpu.regs :=
  congrArg Context.regs h.context

theorem Quiet.rip (h : Quiet own restorer t t') : t'.cpu.rip = t.cpu.rip :=
  congrArg Context.rip h.context

theorem Quiet.rflags (h : Quiet own restorer t t') : t'.cpu.rflags = t.cpu.rflags :=
  congrArg Context.rflags h.context

theorem Quiet.trans (h : Quiet own restorer t t₁) (h' : Quiet own restorer t₁ t') :
    Quiet own restorer t t' where
  context := h'.context.trans h.context
  mem := by
    intro a ha hr
    rw [h'.mem a ha (by rw [h.regs]; exact hr), h.mem a ha hr]
  armed := h'.armed ∘ h.armed

theorem Goes.mem (h : Goes M K own restorer top n t t') {a : Word} (ha : ¬own a)
    (hu : top ≤ a.toNat) : t'.cpu.mem a = t.cpu.mem a := by
  induction h with
  | refl => rfl
  | instr h _ ih => rw [ih, h.mem a ha hu]
  | quiet under h _ ih =>
    rw [ih, h.mem a ha]
    unfold redZone
    omega

theorem Goes.rflags (laws : K.Lawful) (h : Goes M K own restorer top n t t') :
    t'.cpu.rflags &&& ~~~FIX_EFLAGS = t.cpu.rflags &&& ~~~FIX_EFLAGS := by
  induction h with
  | refl => rfl
  | instr h _ ih => rw [ih, moves_rflags laws h.moves]
  | quiet _ h _ ih => rw [ih, h.rflags]

theorem Goes.armed (h : Goes M K own restorer top n t t') (armed : Armed restorer t.actions) :
    Armed restorer t'.actions := by
  induction h with
  | refl => exact armed
  | instr h _ ih => exact ih (h.armed armed)
  | quiet _ h _ ih => exact ih (h.armed armed)

/-- The next instruction comes after quiet changes. -/
theorem Goes.head (h : Goes M K own restorer top (n + 1) t t') :
    ∃ t₁ t₂, Quiet own restorer t t₁ ∧ M.Moves K t₁ t₂ ∧
      Goes M K own restorer top n t₂ t' := by
  generalize hk : n + 1 = k at h
  induction h with
  | refl => cases hk
  | @instr m t t₁ t' h rest _ =>
    cases hk
    exact ⟨t, t₁, .refl t, h.moves, rest⟩
  | quiet _ h _ ih =>
    obtain ⟨t₁, t₂, hq, hi, rest⟩ := ih hk
    exact ⟨t₁, t₂, h.trans hq, hi, rest⟩

/-- Off the stack under `top` no signal is handled any more. -/
theorem Goes.still (h : Goes M K own restorer top 0 t t')
    (off : top + 8 < (t.cpu.regs .rsp).toNat) : t' = t := by
  cases h with
  | refl => rfl
  | quiet under _ _ => omega

end Goes

/-! ## A handled signal -/

section Handled
variable {ℓ : Type} {M : Image ℓ} {K : SigKernel} {own : Word → Prop} {restorer : Word} {l : ℓ}
  {top n k : Nat} {frame : Word} {sig : CInt} {t t₁ t₂ t₃ t' : Thread}

/-- The two instructions at `sigrestore` call `rt_sigreturn` with the stack as it was. -/
theorem sigrestore_calls (placed : M.Placed restorer (sigrestore l))
    (h : Goes M K own restorer top 2 t t') (hrip : t.cpu.rip = restorer) :
    ∃ v v' next, v.cpu.regs .rax = SYS_rt_sigreturn ∧ v.cpu.regs .rsp = t.cpu.regs .rsp ∧
      v.cpu.rflags = t.cpu.rflags ∧
      (∀ a : Word, ¬own a → (t.cpu.regs .rsp).toNat ≤ a.toNat + redZone →
        v.cpu.mem a = t.cpu.mem a) ∧
      K.Returns v next v' ∧ Goes M K own restorer top 0 v' t' := by
  obtain ⟨-, a, hmov, b, hsys, -⟩ := placed
  obtain ⟨t₁, t₂, hq, hi, h⟩ := h.head
  obtain ⟨t₃, t₄, hq', hi', h⟩ := h.head
  rw [moves_plain (by rw [hq.rip, hrip]; exact hmov) (by simp)] at hi
  have hrip₃ : t₃.cpu.rip = a := by
    rw [hq'.rip, hi]
    rfl
  rw [moves_syscall (by rw [hrip₃]; exact hsys)] at hi'
  have hsp₂ : t₂.cpu.regs .rsp = t.cpu.regs .rsp := by
    rw [hi, ← hq.regs]
    simp [Image.exec, Op.eval, Gprs.set]
  refine ⟨t₃, t₄, b, ?_, ?_, ?_, ?_, hi', h⟩
  · rw [hq'.regs, hi]
    simp [Image.exec, Op.eval, SYS_rt_sigreturn]
  · rw [hq'.regs, hsp₂]
  · rw [hq'.rflags, hi, ← hq.rflags]
    rfl
  · intro x hx low
    rw [hq'.mem x hx (by rw [hsp₂]; exact low), hi]
    exact hq.mem x hx low

theorem delivered_armed (h : Delivered t sig frame t₁) (armed : Armed restorer t.actions) :
    Armed restorer t₁.actions := by
  intro k hdfl hign
  rcases h.actions k with same | reset
  · rw [same] at hdfl hign ⊢
    exact armed k hdfl hign
  · exact absurd reset hdfl

/-- A signal is handled quietly, if the handler comes back to `sigrestore`. -/
theorem handled_quiet (laws : K.Lawful) (placed : M.Placed restorer (sigrestore l))
    (armed : Armed restorer t.actions) (h : K.Delivers t sig frame t₁)
    (clear : ∀ a, InFrame t frame a → ¬own a)
    (handler : Goes M K own restorer frame.toNat k t₁ t₂)
    (ret : t₂.cpu.rip = (t.actions sig).sa_restorer) (rsp : t₂.cpu.regs .rsp = frame + 8)
    (restored : Goes M K own restorer frame.toNat 2 t₂ t₃) : Quiet own restorer t t₃ := by
  have delivered := laws.delivered h
  have room := delivered.room
  have bound := (t.cpu.regs .rsp).isLt
  unfold redZone at room
  have hsp : (frame + 8).toNat = frame.toNat + 8 := by
    rw [BitVec.toNat_add]
    exact Nat.mod_eq_of_lt (by simp; omega)
  have hrip : t₂.cpu.rip = restorer := by
    rw [ret, (armed sig delivered.caught.1 delivered.caught.2).2]
  obtain ⟨v, v', next, hax, hvsp, hvfl, hvmem, hret, rest⟩ :=
    sigrestore_calls placed restored hrip
  have intact : ∀ a, InFrame t frame a → v.cpu.mem a = t₁.cpu.mem a := by
    intro a ha
    have low : (t₂.cpu.regs .rsp).toNat ≤ a.toNat + redZone := by
      rw [rsp, hsp]
      have hl := ha.1
      unfold redZone
      omega
    rw [hvmem a (clear a ha) low, handler.mem (clear a ha) ha.1]
  have context : v'.cpu.context = t.cpu.context :=
    laws.sigreturn h hax (hvsp.trans rsp) (by rw [hvfl, handler.rflags laws]) intact hret
  have hr : v'.cpu.regs = t.cpu.regs := congrArg Context.regs context
  have off : frame.toNat + 8 < (v'.cpu.regs .rsp).toNat := by
    rw [hr]
    omega
  constructor
  case context => rw [rest.still off, context]
  case mem =>
    intro a ha hu
    have above : ¬InFrame t frame a := fun hin => Nat.not_lt.mpr hu hin.2
    have hl : frame.toNat ≤ a.toNat := by
      unfold redZone at hu
      omega
    rw [restored.mem ha hl, handler.mem ha hl, delivered.mem a above]
  case armed =>
    intro _
    exact restored.armed (handler.armed (delivered_armed delivered armed))

/-- A run under signals is a run in which each signal is a quiet change, however deep the handlers
interrupt each other. -/
theorem Plays.goes (laws : K.Lawful) (placed : M.Placed restorer (sigrestore l))
    (armed : Armed restorer t.actions) (h : Plays M K own restorer top n t t') :
    Goes M K own restorer top n t t' := by
  induction h with
  | refl top t => exact .refl t
  | instr h _ ih => exact .instr h (ih (h.armed armed))
  | signal under h clear _ ret rsp _ _ ihHandler ihRestored ihRest =>
    have handler := ihHandler (delivered_armed (laws.delivered h) armed)
    have restored := ihRestored (handler.armed (delivered_armed (laws.delivered h) armed))
    have quiet := handled_quiet laws placed armed h clear handler ret rsp restored
    exact .quiet under quiet (ihRest (quiet.armed armed))

end Handled

/-! ## Handlers that only return -/

section Bare
variable {ℓ : Type} {M : Image ℓ} {K : SigKernel} {own : Word → Prop} {restorer : Word} {l : ℓ}
  {next frame : Word} {sig : CInt} {t t₁ : Thread}

end Bare

namespace Demo

inductive Sym
  | sigrestore | handler
deriving DecidableEq

/-- A program that keeps `rbx` while it uses it, and a handler that does nothing. -/
def interrupted : Image Sym :=
  .assemble 0x401000 ([.push .rbx, .movImm .rbx 7, .pop .rbx] ++ Libmini.sigrestore .sigrestore ++
    [.label .handler, .ret]) fun c => (-38, c.mem, c.mask)

def SIGINT : CInt := 2

/-- The handler for SIGINT and SIGALRM. -/
def actions : Actions := fun sig =>
  if sig = SIGINT ∨ sig = SIGALRM then
    ⟨interrupted.symbols .handler, SA_RESTORER, interrupted.symbols .sigrestore, 0⟩
  else ⟨SIG_DFL, 0, 0, 0⟩

def thread : Thread where
  cpu :=
    { regs
        | .rsp => 0x7000
        | .rbx => 5
        | _ => 0
      rip := 0x401000
      rflags := 0x202
      mem := fun _ => 0
      mask := .of 0 }
  actions := actions

theorem placed :
    interrupted.Placed (interrupted.symbols .sigrestore) (Libmini.sigrestore .sigrestore) := by
  decide

end Demo

end UnixProgramming.Libmini.Proofs
