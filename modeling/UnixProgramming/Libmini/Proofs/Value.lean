import UnixProgramming.Libmini.Signal
import UnixProgramming.Libmini.Proofs.Jump

namespace UnixProgramming.Libmini.Proofs
open Lib

section Value
variable {M : Image Label} {c c' c'' : Cpu}

/-- The `int` in the low half of a register, which leaves the other half open. -/
def low (v : Word) : CInt := v.setWidth 32

/-- What `setjmp` is to return for the second argument of `longjmp`. -/
def expected (val : CInt) : CInt := if val = 0 then 1 else val

theorem low_value (rsi : Word) :
    low (if rsi = 0 then 1 else rsi) = expected (low rsi) ↔ low rsi ≠ 0 ∨ rsi = 0 := by
  by_cases hz : rsi = 0
  · subst hz
    exact iff_of_true rfl (.inr rfl)
  · rw [if_neg hz, expected]
    by_cases hl : low rsi = 0
    · rw [if_pos hl, hl]
      simpa using hz
    · rw [if_neg hl]
      exact iff_of_true rfl (.inl hl)

/-- `longjmp` compares all of `rsi` with zero, where its `int` is only the low half. -/
theorem longjmp_returns (M : Image Label) (linked : Linked M) (env : JmpBuf) (c₀ : Cpu)
    (hrip : c₀.rip = M.symbols .setjmp) (hrdi : c₀.regs .rdi = env.addr)
    (clear : Clear env (c₀.regs .rsp)) :
    ∃ c₁, M.Steps c₀ c₁ ∧ c₁.rip = load 8 c₀.mem (c₀.regs .rsp) ∧ c₁.regs .rax = 0 ∧
      ∀ c, c.rip = M.symbols .longjmp → c.regs .rdi = env.addr →
        Agree c₁.mem c.mem env.addr 72 →
        ∃ c', M.Steps c c' ∧ Resumed env c₀ c c' ∧
          (low (c'.regs .rax) = expected (low (c.regs .rsi)) ↔
            low (c.regs .rsi) ≠ 0 ∨ c.regs .rsi = 0) := by
  obtain ⟨c₁, hs, hret, -, hax, saved⟩ := setjmp_saves linked hrip hrdi clear
  refine ⟨c₁, hs, hret, hax, ?_⟩
  intro c hrip hrdi hbuf
  obtain ⟨c', hs', resumed, hval⟩ := longjmp_resumes linked hrip hrdi (saved.agree hbuf) clear
  refine ⟨c', hs', resumed, ?_⟩
  rw [hval]
  exact low_value (c.regs .rsi)

/-- A run that stops has one end. -/
theorem steps_end (h : M.Steps c c') (h' : M.Steps c c'') (stop : M.step c' = none)
    (stop' : M.step c'' = none) : c' = c'' := by
  have stuck : ∀ {n k : Nat} {a b : Cpu}, M.run n c = some a → M.run (n + k) c = some b →
      M.step a = none → a = b := by
    intro n k a b hn hk hstop
    rw [run_add hn] at hk
    cases k with
    | zero => exact Option.some.inj hk
    | succ k => simp [Image.run, hstop] at hk
  obtain ⟨n, hn⟩ := h
  obtain ⟨k, hk⟩ := h'
  rcases Nat.le_total n k with hle | hle
  · obtain ⟨j, rfl⟩ := Nat.exists_eq_add_of_le hle
    exact stuck hn hk stop
  · obtain ⟨j, rfl⟩ := Nat.exists_eq_add_of_le hle
    exact (stuck hk hn stop').symm

end Value

namespace Demo

theorem linked : Linked image := by
  constructor <;> decide

theorem clear : Clear env (call.regs .rsp) := by
  unfold Clear
  decide +kernel

/-- `longjmp(env, 0)` called from `c`, with something in the upper half of `rsi`. -/
def again (c : Cpu) : Cpu :=
  { c with
    rip := image.symbols .longjmp
    regs := (c.regs.set .rdi 0x8000).set .rsi 0x100000000 }

end Demo

theorem longjmp_returns_demo :
    ∃ c₁, Demo.image.Steps Demo.call c₁ ∧
      c₁.rip = load 8 Demo.call.mem (Demo.call.regs .rsp) ∧ c₁.regs .rax = 0 ∧
      ∀ c, c.rip = Demo.image.symbols .longjmp → c.regs .rdi = Demo.env.addr →
        Agree c₁.mem c.mem Demo.env.addr 72 →
        ∃ c', Demo.image.Steps c c' ∧ Resumed Demo.env Demo.call c c' ∧
          (low (c'.regs .rax) = expected (low (c.regs .rsi)) ↔
            low (c.regs .rsi) ≠ 0 ∨ c.regs .rsi = 0) :=
  longjmp_returns Demo.image Demo.linked Demo.env Demo.call rfl rfl Demo.clear

/-- With `0x100000000` in `rsi`, whose low half is zero, `setjmp` does not return one. -/
theorem longjmp_returns_zero :
    ∃ c₁, Demo.image.Steps Demo.call c₁ ∧ low ((Demo.again c₁).regs .rsi) = 0 ∧
      ¬∃ c', Demo.image.Steps (Demo.again c₁) c' ∧ c'.rip = 0x402345 ∧
        low (c'.regs .rax) = expected 0 := by
  obtain ⟨c₁, hs, -, -, -, saved⟩ := setjmp_saves (c := Demo.call) Demo.linked rfl rfl Demo.clear
  have hrsi : (Demo.again c₁).regs .rsi = 0x100000000 := rfl
  refine ⟨c₁, hs, by rw [hrsi]; decide, ?_⟩
  rintro ⟨c', hs', hrip, hax⟩
  obtain ⟨c'', hs'', resumed, hval⟩ :=
    longjmp_resumes (c := Demo.again c₁) Demo.linked rfl rfl saved Demo.clear
  have hret : load 8 Demo.call.mem (Demo.call.regs .rsp) = 0x402345 :=
    load_store_same _ _ _ (by decide)
  have hrip'' := resumed.rip
  rw [hret] at hrip''
  have stops : ∀ a : Cpu, a.rip = 0x402345 → Demo.image.step a = none := by
    intro a ha
    rw [Image.step, ha]
    rfl
  obtain rfl := steps_end hs' hs'' (stops c' hrip) (stops c'' hrip'')
  rw [hval, hrsi] at hax
  exact absurd hax (by decide)

end UnixProgramming.Libmini.Proofs
