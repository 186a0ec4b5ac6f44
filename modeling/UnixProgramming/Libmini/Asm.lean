import UnixProgramming.Libmini.Cpu

namespace UnixProgramming.Libmini
open Lib

/-- A line of assembler text. -/
inductive Line (ℓ : Type)
  | label (l : ℓ)
  | instr (i : Instr ℓ)
deriving DecidableEq

section
variable {ℓ : Type}

abbrev Line.mov (dst src : Gpr) : Line ℓ := .instr (.op (.mov dst src))
abbrev Line.movImm (dst : Gpr) (v : Word) : Line ℓ := .instr (.op (.movImm dst v))
abbrev Line.load (dst base : Gpr) (disp : Word) : Line ℓ := .instr (.op (.load dst base disp))
abbrev Line.store (base : Gpr) (disp : Word) (src : Gpr) : Line ℓ :=
  .instr (.op (.store base disp src))
abbrev Line.lea (dst base : Gpr) (disp : Word) : Line ℓ := .instr (.op (.lea dst base disp))
abbrev Line.push (src : Gpr) : Line ℓ := .instr (.op (.push src))
abbrev Line.pop (dst : Gpr) : Line ℓ := .instr (.op (.pop dst))
abbrev Line.cmp (a : Gpr) (b : Word) : Line ℓ := .instr (.op (.cmp a b))
abbrev Line.syscall : Line ℓ := .instr .syscall
abbrev Line.call (l : ℓ) : Line ℓ := .instr (.call l)
abbrev Line.jne (l : ℓ) : Line ℓ := .instr (.jne l)
abbrev Line.ret : Line ℓ := .instr .ret

/-- `text` lies in the program from `a` on, whatever sizes its instructions have. -/
def Image.Placed (M : Image ℓ) : Word → List (Line ℓ) → Prop
  | _, [] => True
  | a, .label l :: text => M.symbols l = a ∧ M.Placed a text
  | a, .instr i :: text => ∃ next, M.fetch a = some (i, next) ∧ M.Placed next text

instance Image.decidePlaced [DecidableEq ℓ] (M : Image ℓ) :
    (a : Word) → (text : List (Line ℓ)) → Decidable (M.Placed a text)
  | _, [] => isTrue trivial
  | a, .label _ :: text =>
    have := M.decidePlaced a text
    instDecidableAnd
  | a, .instr i :: text =>
    match h : M.fetch a with
    | none => isFalse (by simp [Placed, h])
    | some (j, next) =>
      have := M.decidePlaced next text
      decidable_of_iff (j = i ∧ M.Placed next text) (by simp [Placed, h])

/-- The instructions of a text. -/
def instrs (text : List (Line ℓ)) : List (Instr ℓ) :=
  text.filterMap fun
    | .label _ => none
    | .instr i => some i

/-- The program of `text` alone at `base`, each instruction padded to four bytes. -/
def Image.assemble [DecidableEq ℓ] (base : Word) (text : List (Line ℓ))
    (kernel : Cpu → Word × Memory 64 × SigMask) : Image ℓ where
  symbols l := base + 4 * BitVec.ofNat 64 (instrs (text.takeWhile (· ≠ .label l))).length
  fetch a :=
    if (a - base).toNat % 4 = 0 then
      (instrs text)[(a - base).toNat / 4]?.map fun i => (i, a + 4)
    else none
  kernel := kernel

end

inductive Label
  | sys_rt_sigprocmask | setjmp | longjmp | next
deriving DecidableEq

/-- The macro `gensys n, l`. -/
def gensys (n : Word) (l : Label) : List (Line Label) :=
  [.label l,
   .push .r10,
   .mov .r10 .rcx,
   .movImm .rax n,
   .syscall,
   .pop .r10,
   .ret]

def sys_rt_sigprocmask : List (Line Label) := gensys 14 .sys_rt_sigprocmask

def setjmp : List (Line Label) :=
  [.label .setjmp,
   .store .rdi 0 .rbx,
   .store .rdi 0x08 .rbp,
   .store .rdi 0x10 .rsp,
   .store .rdi 0x18 .r12,
   .store .rdi 0x20 .r13,
   .store .rdi 0x28 .r14,
   .store .rdi 0x30 .r15,
   .load .rax .rsp 0,
   .store .rdi 0x38 .rax,
   .push .rcx,
   .mov .rax .rdi,
   .movImm .rdi 0,
   .movImm .rsi 0,
   .lea .rdx .rax 0x40,
   .movImm .rcx 8,
   .call .sys_rt_sigprocmask,
   .pop .rcx,
   .movImm .rax 0,
   .ret]

def longjmp : List (Line Label) :=
  [.label .longjmp,
   .load .rbx .rdi 0,
   .load .rbp .rdi 0x08,
   .load .rsp .rdi 0x10,
   .load .r12 .rdi 0x18,
   .load .r13 .rdi 0x20,
   .load .r14 .rdi 0x28,
   .load .r15 .rdi 0x30,
   .pop .rax,
   .load .rax .rdi 0x38,
   .push .rax,
   .push .rcx,
   .push .rsi,
   .mov .rax .rdi,
   .movImm .rdi 2,
   .lea .rsi .rax 0x40,
   .movImm .rdx 0,
   .movImm .rcx 8,
   .call .sys_rt_sigprocmask,
   .pop .rsi,
   .pop .rcx,
   .cmp .rsi 0,
   .jne .next,
   .movImm .rsi 1,
   .label .next,
   .mov .rax .rsi,
   .ret]

/-- A program with the three routines in it. -/
structure Linked (M : Image Label) : Prop where
  sys_rt_sigprocmask : M.Placed (M.symbols .sys_rt_sigprocmask) sys_rt_sigprocmask
  setjmp : M.Placed (M.symbols .setjmp) setjmp
  longjmp : M.Placed (M.symbols .longjmp) longjmp

section Blocks
variable {ℓ : Type} {M : Image ℓ} {c : Cpu} {text : List (Line ℓ)}

/-- The instructions `text` begins with that go on with the next one. -/
def block : List (Line ℓ) → List Op
  | .instr (.op o) :: text => o :: block text
  | _ => []

/-- `text` behind its first block. -/
def behind : List (Line ℓ) → List (Line ℓ)
  | .instr (.op _) :: text => behind text
  | text => text

/-- The state after a block, `rip` left where it was. -/
def evals (c : Cpu) (os : List Op) : Cpu := os.foldl Op.eval c

theorem eval_rip (c : Cpu) (a : Word) (o : Op) :
    Op.eval { c with rip := a } o = { Op.eval c o with rip := a } := by
  cases o <;> rfl

theorem evals_rip (c : Cpu) (a : Word) (os : List Op) :
    evals { c with rip := a } os = { evals c os with rip := a } := by
  induction os generalizing c with
  | nil => rfl
  | cons o os ih =>
    simp only [evals, List.foldl_cons, eval_rip] at ih ⊢
    exact ih (o.eval c)

/-- Running the block a text begins with. -/
theorem Image.Placed.block (h : M.Placed c.rip text) :
    ∃ next, M.Placed next (behind text) ∧
      M.Steps c { evals c (block text) with rip := next } := by
  induction text generalizing c with
  | nil => exact ⟨c.rip, h, .refl c⟩
  | cons line text ih =>
    cases line with
    | label l => exact ⟨c.rip, h, .refl c⟩
    | instr i =>
      cases i with
      | op o =>
        obtain ⟨a, hf, ht⟩ := h
        obtain ⟨next, hn, hs⟩ := ih (c := { o.eval c with rip := a }) ht
        refine ⟨next, hn, (Steps.fetched hf).trans ?_⟩
        rw [evals_rip] at hs
        exact hs
      | syscall => exact ⟨c.rip, h, .refl c⟩
      | call l => exact ⟨c.rip, h, .refl c⟩
      | jne l => exact ⟨c.rip, h, .refl c⟩
      | ret => exact ⟨c.rip, h, .refl c⟩

end Blocks

end UnixProgramming.Libmini
