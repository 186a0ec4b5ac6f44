import UnixProgramming.Libmini.Proofs.Delivery

namespace UnixProgramming.Libmini.Proofs
open Lib

/-! ## What an instruction needs -/

section Needs
variable {ℓ : Type}

/-- Where an instruction other than `syscall` reads. -/
def reads (c : Cpu) : Instr ℓ → Word → Prop
  | .op (.load _ base disp), a => offset (c.regs base + disp) a < 8
  | .op (.pop _), a => offset (c.regs .rsp) a < 8
  | .ret, a => offset (c.regs .rsp) a < 8
  | _, _ => False

/-- Where it stores. -/
def writes (c : Cpu) : Instr ℓ → Word → Prop
  | .op (.store base disp _), a => offset (c.regs base + disp) a < 8
  | .op (.push _), a => offset (c.regs .rsp - 8) a < 8
  | .call _, a => offset (c.regs .rsp - 8) a < 8
  | _, _ => False

variable {M : Image ℓ} {c d : Cpu} {D : Word → Prop}

theorem load_same {a : Word} (agree : ∀ x, D x → d.mem x = c.mem x)
    (known : ∀ x, offset a x < 8 → D x) : load 8 d.mem a = load 8 c.mem a := by
  apply load_congr
  intro i hi
  exact agree _ (known _ (by rw [offset_add a (by omega)]; exact hi))

theorem store_same {a v x : Word} (agree : ∀ x, D x → d.mem x = c.mem x)
    (hx : D x ∨ offset a x < 8) : store 8 d.mem a v x = store 8 c.mem a v x := by
  unfold store
  split
  · rfl
  · next h => exact agree x (hx.resolve_right h)

theorem exec_same {i : Instr ℓ} (hi : i ≠ .syscall) (next : Word)
    (context : d.context = c.context) (agree : ∀ x, D x → d.mem x = c.mem x)
    (known : ∀ x, reads c i x → D x) :
    (M.exec d next i).context = (M.exec c next i).context ∧
      ∀ x, D x ∨ writes c i x → (M.exec d next i).mem x = (M.exec c next i).mem x := by
  obtain ⟨regs, rip, rflags, mem, mask⟩ := c
  obtain ⟨regs', rip', rflags', mem', mask'⟩ := d
  obtain ⟨rfl, rfl, rfl, rfl⟩ : regs' = regs ∧ rip' = rip ∧ rflags' = rflags ∧ mask' = mask := by
    simpa [Cpu.context] using context
  cases i with
  | syscall => exact absurd rfl hi
  | op o =>
    cases o with
    | load dst base disp =>
      have same := load_same agree known
      refine ⟨?_, fun x hx => agree x (hx.resolve_right id)⟩
      simp only [Image.exec, Op.eval, Cpu.context, same]
    | pop dst =>
      have same := load_same agree known
      refine ⟨?_, fun x hx => agree x (hx.resolve_right id)⟩
      simp only [Image.exec, Op.eval, Cpu.context, same]
    | store base disp src => exact ⟨rfl, fun x hx => store_same agree hx⟩
    | push src => exact ⟨rfl, fun x hx => store_same agree hx⟩
    | _ => exact ⟨rfl, fun x hx => agree x (hx.resolve_right id)⟩
  | call l => exact ⟨rfl, fun x hx => store_same agree hx⟩
  | jne l => exact ⟨rfl, fun x hx => agree x (hx.resolve_right id)⟩
  | ret =>
    have same := load_same agree known
    refine ⟨?_, fun x hx => agree x (hx.resolve_right id)⟩
    simp only [Image.exec, Cpu.context, same]

end Needs

/-! ## Code by itself -/

section Alone
variable {ℓ : Type} (M : Image ℓ) (K : SigKernel) (own : Word → Prop)

/-- By itself the code comes from `t` to `u` by `n` instructions, of which none needs more memory
than `D` holds, and `D'` in the end: nothing that is `own`, and nothing that has been below the
red zone since it was written. Each has but one outcome, which is no system call's that a signal
interrupts. -/
inductive Tidy : Nat → Thread → (Word → Prop) → Thread → (Word → Prop) → Prop
  | done (t : Thread) (D : Word → Prop) : Tidy 0 t D t D
  | instr {n : Nat} {t t₁ u : Thread} {D D₁ D' : Word → Prop} (h : M.Moves K t t₁)
      (safe : ∀ a, D₁ a → ¬own a ∧ (t₁.cpu.regs .rsp).toNat ≤ a.toNat + redZone)
      (needs : ∀ v v₁, v.cpu.context = t.cpu.context → (∀ a, D a → v.cpu.mem a = t.cpu.mem a) →
        M.Moves K v v₁ →
          v₁.cpu.context = t₁.cpu.context ∧ ∀ a, D₁ a → v₁.cpu.mem a = t₁.cpu.mem a)
      (rest : Tidy n t₁ D₁ u D') : Tidy (n + 1) t D u D'

variable {M K own} {restorer : Word} {l : ℓ} {top n : Nat} {t u v : Thread} {D D' : Word → Prop}

/-- What is known behind an instruction other than `syscall`. -/
def known (own : Word → Prop) (D : Word → Prop) (c : Cpu) (i : Instr ℓ) (c' : Cpu) : Word → Prop :=
  fun a => (D a ∨ writes c i a) ∧ ¬own a ∧ (c'.regs .rsp).toNat ≤ a.toNat + redZone

theorem Tidy.plain {i : Instr ℓ} {next : Word} (hf : M.fetch t.cpu.rip = some (i, next))
    (hi : i ≠ .syscall) (hr : ∀ a, reads t.cpu i a → D a)
    (rest : Tidy M K own n { t with cpu := M.exec t.cpu next i }
      (known own D t.cpu i (M.exec t.cpu next i)) u D') : Tidy M K own (n + 1) t D u D' := by
  refine .instr ((moves_plain hf hi).mpr rfl) (fun a ha => ha.2) ?_ rest
  intro v v₁ context agree hv
  have hrip : v.cpu.rip = t.cpu.rip := congrArg Context.rip context
  rw [moves_plain (by rw [hrip]; exact hf) hi] at hv
  subst hv
  obtain ⟨hc, hm⟩ := exec_same (M := M) hi next context agree hr
  exact ⟨hc, fun a ha => hm a ha.1⟩

end Alone

namespace Demo

/-- The program behind its first instruction. -/
def pushed : Thread :=
  { thread with cpu := interrupted.exec thread.cpu 0x401004 (.op (.push .rbx)) }

def loaded : Thread :=
  { pushed with cpu := interrupted.exec pushed.cpu 0x401008 (.op (.movImm .rbx 7)) }

def popped : Thread :=
  { loaded with cpu := interrupted.exec loaded.cpu 0x40100c (.op (.pop .rbx)) }

theorem push_at : interrupted.fetch 0x401000 = some (.op (.push .rbx), 0x401004) := by decide

theorem movImm_at : interrupted.fetch 0x401004 = some (.op (.movImm .rbx 7), 0x401008) := by
  decide

theorem pop_at : interrupted.fetch 0x401008 = some (.op (.pop .rbx), 0x40100c) := by decide

theorem alone :
    ∃ D', Tidy interrupted framing (fun _ => False) 3 thread (fun _ => False) popped D' := by
  refine ⟨_, .plain push_at (by simp) (fun _ => id)
    (.plain movImm_at (by simp) (fun _ => False.elim) (.plain pop_at (by simp) ?_ (.done _ _)))⟩
  intro a (ha : offset (0x6ff8 : Word) a < 8)
  have low : (0x6ff8 : Word).toNat ≤ a.toNat + redZone := by
    have hs := congrArg BitVec.toNat (add_offset (0x6ff8 : Word) a)
    have base : (0x6ff8 : Word).toNat = 28664 := rfl
    rw [BitVec.toNat_add, BitVec.toNat_ofNat, base] at hs
    rw [base]
    omega
  exact ⟨.inl ⟨.inr ha, id, low⟩, id, low⟩

def stopped : Thread := deliver pushed SIGINT 0x6db8

theorem stops : framing.Delivers pushed SIGINT 0x6db8 stopped := by
  refine ⟨?_, rfl⟩
  constructor <;> decide

end Demo

end UnixProgramming.Libmini.Proofs
