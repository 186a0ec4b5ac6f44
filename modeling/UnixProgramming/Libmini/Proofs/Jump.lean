import UnixProgramming.Libmini.Asm

namespace UnixProgramming.Libmini.Proofs
open Lib

/-! ## System call stubs -/

section Stub
variable {M : Image Label} {c : Cpu} {n : Word} {l : Label}

/-- A stub entered with the registers `g` is back at its caller with the kernel's answer `r`. -/
structure Returned (r : Word × Memory 64 × SigMask) (g : Gprs) (c' : Cpu) : Prop where
  rip : c'.rip = load 8 r.2.1 (g .rsp)
  rsp : c'.regs .rsp = g .rsp + 8
  rax : c'.regs .rax = r.1
  mem : c'.mem = r.2.1
  mask : c'.mask = r.2.2
  kept : ∀ i, i ∉ [Gpr.rax, .rcx, .r10, .r11, .rsp] → c'.regs i = g i

/-- The state a stub enters the kernel in. -/
def trapped (n : Word) (c : Cpu) : Cpu :=
  evals c [.push .r10, .mov .r10 .rcx, .movImm .rax n]

theorem gensys_returns (h : M.Placed c.rip (gensys n l)) :
    ∃ a c', M.Steps c c' ∧ Returned (M.sysenter { trapped n c with rip := a }) c.regs c' := by
  obtain ⟨-, h⟩ := h
  obtain ⟨a, h, hs⟩ := h.block
  obtain ⟨b, hf, h⟩ := h
  replace hs := hs.trans (.fetched hf)
  obtain ⟨d, h, hs'⟩ := Image.Placed.block (c := M.exec _ b .syscall) h
  obtain ⟨e, hf, -⟩ := h
  replace hs := (hs.trans hs').trans (.fetched hf)
  refine ⟨a, _, hs, ?_⟩
  constructor
  case kept =>
    intro i hi
    simp only [List.mem_cons, List.not_mem_nil, or_false, not_or] at hi
    obtain ⟨h1, h2, h3, h4, h5⟩ := hi
    simp [Image.exec, evals, block, Op.eval, Gprs.set, h1, h2, h3, h4, h5]
  all_goals simp [Image.exec, evals, block, Op.eval, Gprs.set, trapped]

theorem sigprocmask_returns (linked : Linked M) (hrip : c.rip = M.symbols .sys_rt_sigprocmask) :
    ∃ c', M.Steps c c' ∧ Returned
      (rtSigprocmask (c.regs .rdi) (c.regs .rsi) (c.regs .rdx) (c.regs .rcx)
        (store 8 c.mem (c.regs .rsp - 8) (c.regs .r10)) c.mask) c.regs c' := by
  have h := linked.sys_rt_sigprocmask
  rw [← hrip] at h
  obtain ⟨a, c', hs, hr⟩ := gensys_returns h
  refine ⟨c', hs, ?_⟩
  simpa [Image.sysenter, trapped, evals, Op.eval, Gprs.set, SYS_rt_sigprocmask] using hr

/-- A call of the stub, up to its `ret`. -/
theorem sigprocmask_call {text : List (Line Label)} (linked : Linked M)
    (h : M.Placed c.rip (.call .sys_rt_sigprocmask :: text)) :
    ∃ back c', M.Placed back text ∧ M.Steps c c' ∧ Returned
      (rtSigprocmask (c.regs .rdi) (c.regs .rsi) (c.regs .rdx) (c.regs .rcx)
        (store 8 (store 8 c.mem (c.regs .rsp - 8) back) (c.regs .rsp - 16) (c.regs .r10)) c.mask)
      (c.regs.set .rsp (c.regs .rsp - 8)) c' := by
  obtain ⟨back, hf, h⟩ := h
  obtain ⟨c', hs, hr⟩ :=
    sigprocmask_returns (c := M.exec c back (.call .sys_rt_sigprocmask)) linked rfl
  have hdown : c.regs .rsp - 8#64 - 8#64 = c.regs .rsp - 16#64 := by
    rw [BitVec.sub_sub]
    rfl
  refine ⟨back, c', h, (Image.Steps.fetched hf).trans hs, ?_⟩
  simpa [Image.exec, Gprs.set, hdown] using hr

theorem rtSigprocmask_get {oset : Word} (h : oset ≠ 0) (m : Memory 64) (mask : SigMask) :
    rtSigprocmask 0 0 oset 8 m mask = (0, store 8 m oset mask.bits, mask) := by
  have hn : ¬ oset = 0#64 := h
  simp [rtSigprocmask, newMask, hn]

theorem rtSigprocmask_set {set : Word} (h : set ≠ 0) (m : Memory 64) (mask : SigMask) :
    rtSigprocmask 2 set 0 8 m mask = (0, m, .of (load 8 m set)) := by
  have hn : ¬ set = 0#64 := h
  simp [rtSigprocmask, newMask, hn]

end Stub

/-! ## The buffer -/

/-- A `jmp_buf`. The kernel takes a set at address zero for no set at all. -/
structure JmpBuf where
  addr : Word
  not_null : addr + 0x40 ≠ 0

/-- The words `setjmp` keeps of the state `c` of its call. -/
def kept (c : Cpu) : List Word :=
  [c.regs .rbx, c.regs .rbp, c.regs .rsp, c.regs .r12, c.regs .r13, c.regs .r14, c.regs .r15,
   load 8 c.mem (c.regs .rsp)]

/-- The buffer in `m` is as `setjmp` fills it when called in `c`. -/
structure Saved (env : JmpBuf) (c : Cpu) (m : Memory 64) : Prop where
  words : ∀ i v, (kept c)[i]? = some v → load 8 m (env.addr + BitVec.ofNat 64 (8 * i)) = v
  mask : load 8 m (env.addr + 0x40) = c.mask.bits

/-- The buffer does not meet the stack from 32 bytes below `sp` to 8 above. -/
def Clear (env : JmpBuf) (sp : Word) : Prop := Apart env.addr 72 (sp - 32) 40

section Slots
variable {env : JmpBuf} {m : Memory 64} {T v : Word} {i j : Nat}

theorem below (T : Word) (h : j ≤ i) :
    T + BitVec.ofNat 64 i - BitVec.ofNat 64 j = T + BitVec.ofNat 64 (i - j) := by
  obtain ⟨k, rfl⟩ := Nat.exists_eq_add_of_le h
  rw [Nat.add_sub_cancel_left, Nat.add_comm j k, BitVec.ofNat_add, ← BitVec.add_assoc,
    BitVec.add_sub_cancel]

theorem above (T : Word) (i j : Nat) :
    T + BitVec.ofNat 64 i + BitVec.ofNat 64 j = T + BitVec.ofNat 64 (i + j) := by
  rw [BitVec.add_assoc, ← BitVec.ofNat_add]

/-- Words at different places of one region do not meet. -/
theorem load_slot (T : Word) (hi : i + 8 ≤ 2 ^ 64) (hj : j + 8 ≤ 2 ^ 64)
    (h : i + 8 ≤ j ∨ j + 8 ≤ i) :
    load 8 (store 8 m (T + BitVec.ofNat 64 j) v) (T + BitVec.ofNat 64 i) =
      load 8 m (T + BitVec.ofNat 64 i) :=
  ((Apart.slots T hi hj h).agree m v).load

theorem store_stack {x : Word} (hj : j ≤ 32) (hx : 40 ≤ offset T x) :
    store 8 m (T + BitVec.ofNat 64 j) v x = m x :=
  store_part m T v (by omega) hx

theorem Clear.agree (clear : Clear env (T + 32)) (hj : j ≤ 32) :
    Agree m (store 8 m (T + BitVec.ofNat 64 j) v) env.addr 72 := by
  have h : Apart env.addr 72 T 40 := by simpa [Clear] using clear
  have happ := h.part (i := 0) (j := j) (l := 72) (k := 8) (by omega) (by omega)
  exact Apart.agree (by simpa using happ) m v

theorem Clear.load_buffer (clear : Clear env (T + 32)) (hi : i ≤ 64) (hj : j ≤ 32) :
    load 8 (store 8 m (T + BitVec.ofNat 64 j) v) (env.addr + BitVec.ofNat 64 i) =
      load 8 m (env.addr + BitVec.ofNat 64 i) :=
  ((clear.agree hj).part (by omega)).load

theorem Clear.load_stack (clear : Clear env (T + 32)) (hi : i ≤ 64) (hj : j ≤ 32) :
    load 8 (store 8 m (env.addr + BitVec.ofNat 64 i) v) (T + BitVec.ofNat 64 j) =
      load 8 m (T + BitVec.ofNat 64 j) := by
  have h : Apart env.addr 72 T 40 := by simpa [Clear] using clear
  exact ((h.symm.part (by omega) (by omega)).agree m v).load

theorem Clear.load_stack_fill (clear : Clear env (T + 32)) (hj : j ≤ 32) {vs : List Word}
    (hv : vs.length ≤ 9) :
    load 8 (fill 8 m env.addr vs) (T + BitVec.ofNat 64 j) = load 8 m (T + BitVec.ofNat 64 j) := by
  have h : Apart env.addr 72 T 40 := by simpa [Clear] using clear
  have happ := h.symm.part (i := j) (j := 0) (l := 8) (k := 8 * vs.length) (by omega) (by omega)
  exact (agree_fill (by simpa using happ)).load

end Slots

section Setjmp
variable {M : Image Label} {c : Cpu} {env : JmpBuf} {T : Word}

/-- The state `setjmp` asks for the mask in. -/
structure Asking (env : JmpBuf) (c c' : Cpu) (T : Word) : Prop where
  mem : c'.mem = store 8 (fill 8 c.mem env.addr (kept c)) (T + 24) (c.regs .rcx)
  rdi : c'.regs .rdi = 0
  rsi : c'.regs .rsi = 0
  rdx : c'.regs .rdx = env.addr + 0x40
  rcx : c'.regs .rcx = 8
  rsp : c'.regs .rsp = T + 24
  mask : c'.mask = c.mask

theorem setjmp_asks (clear : Clear env (T + 32)) (hrsp : c.regs .rsp = T + 32)
    (hrdi : c.regs .rdi = env.addr) : Asking env c (evals c (block setjmp.tail)) T := by
  have hret : load 8 (fill 8 c.mem env.addr ((kept c).take 7)) (T + 32#64) =
      load 8 c.mem (T + 32#64) := clear.load_stack_fill (by omega) (by simp [kept])
  simp [kept, fill, BitVec.add_assoc, hrsp] at hret
  constructor <;>
    simp [evals, block, setjmp, Op.eval, Gprs.set, kept, fill, BitVec.add_assoc, hrdi, hrsp, hret,
      below]

theorem setjmp_saves (linked : Linked M) (hrip : c.rip = M.symbols .setjmp)
    (hrdi : c.regs .rdi = env.addr) (clear : Clear env (c.regs .rsp)) :
    ∃ c', M.Steps c c' ∧ c'.rip = load 8 c.mem (c.regs .rsp) ∧ c'.regs .rsp = c.regs .rsp + 8 ∧
      c'.regs .rax = 0 ∧ Saved env c c'.mem := by
  obtain ⟨T, hrsp⟩ : ∃ T, c.regs .rsp = T + 32 := ⟨c.regs .rsp - 32, by simp⟩
  rw [hrsp] at clear
  have h := linked.setjmp
  rw [← hrip] at h
  obtain ⟨-, h⟩ := h
  obtain ⟨a, h, hs⟩ := h.block
  have asking := setjmp_asks clear hrsp hrdi
  replace hs : M.Steps c { evals c (block setjmp.tail) with rip := a } := hs
  generalize evals c (block setjmp.tail) = c₁ at asking hs
  obtain ⟨back, c₂, h, hs', hr⟩ := sigprocmask_call (c := { c₁ with rip := a }) linked h
  simp only [asking.mem, asking.rdi, asking.rsi, asking.rdx, asking.rcx, asking.rsp, asking.mask,
    rtSigprocmask_get env.not_null] at hr
  obtain ⟨hback, hsp, -, hm, -, -⟩ := hr
  simp (disch := omega) only [Gprs.set_self, BitVec.ofNat_eq_ofNat, below, above, Nat.reduceSub,
    Nat.reduceAdd] at hback hsp hm
  simp (disch := omega) only [clear.load_stack, load_slot, load_store_same] at hback
  rw [← hback] at h
  obtain ⟨b, ⟨d, hf, -⟩, hs''⟩ := h.block
  have hlen : (kept c).length = 8 := rfl
  refine ⟨_, ((hs.trans hs').trans hs'').trans (.fetched hf), ?_, ?_, rfl, ?_, ?_⟩
  · simp (disch := omega) [Image.exec, evals, block, Op.eval, Gprs.set, hsp, hm, hrsp, above,
      load_slot, clear.load_stack, clear.load_stack_fill]
  · simp [Image.exec, evals, block, Op.eval, Gprs.set, hsp, hrsp, above]
  · intro i v hv
    have hi : i < 8 := (List.getElem?_eq_some_iff.mp hv).1
    show load 8 c₂.mem _ = v
    rw [hm]
    simp (disch := omega) only [load_slot, clear.load_buffer]
    exact load_fill (by omega) hv
  · show load 8 c₂.mem _ = _
    rw [hm]
    exact load_store_same _ _ _ (by decide)

end Setjmp

section Longjmp
variable {M : Image Label} {c₀ c : Cpu} {env : JmpBuf} {T : Word}

/-- The registers other than `rsp` that a function gives back as it found them. -/
def calleeSaved : List Gpr := [.rbx, .rbp, .r12, .r13, .r14, .r15]

/-- The call of `setjmp` in `c₀` has returned again in `c'`, `longjmp` called in `c`. -/
structure Resumed (env : JmpBuf) (c₀ c c' : Cpu) : Prop where
  rip : c'.rip = load 8 c₀.mem (c₀.regs .rsp)
  rsp : c'.regs .rsp = c₀.regs .rsp + 8
  regs : ∀ i ∈ calleeSaved, c'.regs i = c₀.regs i
  mask : c'.mask = c₀.mask
  buffer : Agree c.mem c'.mem env.addr 72
  mem : ∀ x, 40 ≤ offset (c₀.regs .rsp - 32) x → c'.mem x = c.mem x

/-- The state `longjmp` sets the mask in. -/
structure Setting (env : JmpBuf) (c₀ c c' : Cpu) (T : Word) : Prop where
  mem : c'.mem = store 8 (store 8 (store 8 c.mem (T + 32) (load 8 c₀.mem (c₀.regs .rsp)))
    (T + 24) (c.regs .rcx)) (T + 16) (c.regs .rsi)
  regs : ∀ i ∈ calleeSaved, c'.regs i = c₀.regs i
  rdi : c'.regs .rdi = 2
  rsi : c'.regs .rsi = env.addr + 0x40
  rdx : c'.regs .rdx = 0
  rcx : c'.regs .rcx = 8
  rsp : c'.regs .rsp = T + 16
  mask : c'.mask = c.mask

theorem longjmp_sets (saved : Saved env c₀ c.mem) (hrsp : c₀.regs .rsp = T + 32)
    (hrdi : c.regs .rdi = env.addr) : Setting env c₀ c (evals c (block longjmp.tail)) T := by
  have h0 := saved.words 0 _ rfl
  have h1 := saved.words 1 _ rfl
  have h2 := saved.words 2 _ rfl
  have h3 := saved.words 3 _ rfl
  have h4 := saved.words 4 _ rfl
  have h5 := saved.words 5 _ rfl
  have h6 := saved.words 6 _ rfl
  have h7 := saved.words 7 _ rfl
  simp only [Nat.reduceMul, BitVec.add_zero] at h0 h1 h2 h3 h4 h5 h6 h7
  constructor <;>
    simp [evals, block, longjmp, calleeSaved, Op.eval, Gprs.set, hrdi, hrsp, h0, h1, h2, h3, h4, h5, h6, h7,
      below, above]

/-- Zero in `rsi` becomes one on the way to `next`. -/
theorem longjmp_value (h : M.Placed c.rip (behind (behind longjmp.tail).tail)) :
    ∃ c', M.Steps c c' ∧ M.Placed c'.rip [.mov .rax .rsi, .ret] ∧
      c'.regs .rsi = (if c.zf then 1 else c.regs .rsi) ∧ c'.mem = c.mem ∧ c'.mask = c.mask ∧
      ∀ i, i ≠ .rsi → c'.regs i = c.regs i := by
  obtain ⟨a, hf, b, hf', rfl, h⟩ := h
  have hs := Image.Steps.fetched hf
  cases hz : c.zf with
  | false =>
    refine ⟨_, hs, ?_, rfl, rfl, rfl, fun i _ => rfl⟩
    simpa [Image.exec, hz] using h
  | true =>
    have ha : (M.exec c a (.jne .next)).rip = a := by simp [Image.exec, hz]
    rw [← ha] at hf'
    refine ⟨_, hs.trans (.fetched hf'), h, rfl, rfl, rfl, ?_⟩
    intro i hi
    exact Gprs.set_other _ _ hi

/-- `longjmp` is back on the stack of the call in `c₀`, with its mask. -/
structure Switched (env : JmpBuf) (c₀ c c' : Cpu) (T : Word) : Prop where
  rsp : c'.regs .rsp = T + 16
  regs : ∀ i ∈ calleeSaved, c'.regs i = c₀.regs i
  mask : c'.mask = c₀.mask
  value : load 8 c'.mem (T + 16#64) = c.regs .rsi
  ret : load 8 c'.mem (T + 32#64) = load 8 c₀.mem (c₀.regs .rsp)
  buffer : Agree c.mem c'.mem env.addr 72
  mem : ∀ x, 40 ≤ offset T x → c'.mem x = c.mem x

theorem longjmp_switches (linked : Linked M) (hrip : c.rip = M.symbols .longjmp)
    (hrdi : c.regs .rdi = env.addr) (saved : Saved env c₀ c.mem)
    (clear : Clear env (T + 32)) (hrsp : c₀.regs .rsp = T + 32) :
    ∃ c', M.Steps c c' ∧ M.Placed c'.rip (behind longjmp.tail).tail ∧ Switched env c₀ c c' T := by
  have h := linked.longjmp
  rw [← hrip] at h
  obtain ⟨-, h⟩ := h
  obtain ⟨a, h, hs⟩ := h.block
  have setting := longjmp_sets saved hrsp hrdi
  replace hs : M.Steps c { evals c (block longjmp.tail) with rip := a } := hs
  generalize evals c (block longjmp.tail) = c₁ at setting hs
  obtain ⟨back, c₂, h, hs', hr⟩ := sigprocmask_call (c := { c₁ with rip := a }) linked h
  simp only [setting.mem, setting.rdi, setting.rsi, setting.rdx, setting.rcx, setting.rsp,
    setting.mask, rtSigprocmask_set env.not_null] at hr
  obtain ⟨hback, hsp, -, hm, hmask, hkept⟩ := hr
  simp (disch := omega) only [Gprs.set_self, BitVec.ofNat_eq_ofNat, below, above, Nat.reduceSub,
    Nat.reduceAdd] at hback hsp hm hmask
  simp (disch := omega) only [clear.load_buffer, load_slot, load_store_same] at hback hmask
  rw [← hback] at h
  refine ⟨c₂, hs.trans hs', h, ?_⟩
  constructor
  case rsp => exact hsp
  case regs =>
    intro i hi
    have hne : i ∉ [Gpr.rax, .rcx, .r10, .r11, .rsp] := by
      revert i
      decide
    rw [hkept i hne, Gprs.set_other, setting.regs i hi]
    rintro rfl
    exact hne (by decide)
  case mask => rw [hmask, ← SigMask.of_bits c₀.mask, ← saved.mask]; rfl
  case value =>
    rw [hm]
    simp (disch := omega) only [load_slot, load_store_same]
  case ret =>
    rw [hm]
    simp (disch := omega) only [load_slot, load_store_same]
  case buffer =>
    rw [hm]
    intro i hi
    rw [clear.agree (by omega) i hi, clear.agree (by omega) i hi, clear.agree (by omega) i hi,
      clear.agree (by omega) i hi, clear.agree (by omega) i hi]
  case mem =>
    intro x hx
    rw [hm]
    simp (disch := omega) only [store_stack]

theorem longjmp_resumes (linked : Linked M) (hrip : c.rip = M.symbols .longjmp)
    (hrdi : c.regs .rdi = env.addr) (saved : Saved env c₀ c.mem)
    (clear : Clear env (c₀.regs .rsp)) :
    ∃ c', M.Steps c c' ∧ Resumed env c₀ c c' ∧
      c'.regs .rax = if c.regs .rsi = 0 then 1 else c.regs .rsi := by
  obtain ⟨T, hrsp⟩ : ∃ T, c₀.regs .rsp = T + 32 := ⟨c₀.regs .rsp - 32, by simp⟩
  rw [hrsp] at clear
  obtain ⟨c₂, hs, h, switched⟩ := longjmp_switches linked hrip hrdi saved clear hrsp
  obtain ⟨b, h, hs'⟩ := h.block
  replace hs' : M.Steps c₂ { evals c₂ [.pop .rsi, .pop .rcx, .cmp .rsi 0] with rip := b } := hs'
  obtain ⟨c₃, hs₃, h, hval, hm₃, hmask₃, hkept₃⟩ :=
    longjmp_value (c := { evals c₂ [.pop .rsi, .pop .rcx, .cmp .rsi 0] with rip := b }) h
  obtain ⟨d, ⟨e, hf, -⟩, hs₄⟩ := h.block
  have hsp₃ : c₃.regs .rsp = T + 32#64 := by
    rw [hkept₃ .rsp (by decide)]
    simp [evals, Op.eval, Gprs.set, switched.rsp, above]
  refine ⟨_, ((hs.trans hs').trans hs₃).trans (hs₄.trans (.fetched hf)), ?_, ?_⟩
  · constructor
    case rip =>
      show load 8 c₃.mem (c₃.regs .rsp) = _
      rw [hm₃, hsp₃]
      exact switched.ret
    case rsp =>
      show c₃.regs .rsp + 8 = _
      simp [hsp₃, hrsp, above]
    case regs =>
      intro i hi
      have hne : i ∉ [Gpr.rax, .rcx, .rsi, .rsp] := by
        revert i
        decide
      simp only [List.mem_cons, List.not_mem_nil, or_false, not_or] at hne
      obtain ⟨hax, hcx, hsi, hsp⟩ := hne
      rw [← switched.regs i hi]
      simpa [Image.exec, evals, block, Op.eval, Gprs.set, hax, hcx, hsi, hsp] using hkept₃ i hsi
    case mask => exact hmask₃.trans switched.mask
    case buffer =>
      show Agree c.mem c₃.mem _ _
      rw [hm₃]
      exact switched.buffer
    case mem =>
      intro x hx
      rw [hrsp] at hx
      show c₃.mem x = _
      rw [hm₃]
      exact switched.mem x (by simpa using hx)
  · show c₃.regs .rsi = _
    rw [hval]
    simp [evals, Op.eval, Gprs.set, switched.rsp, switched.value, Cpu.zf, cmpFlags_zf]

end Longjmp

/-! ## Round trip -/

section RoundTrip
variable {M : Image Label} {c₀ c c' : Cpu} {env : JmpBuf}

theorem Saved.agree {m m' : Memory 64} (saved : Saved env c m) (h : Agree m m' env.addr 72) :
    Saved env c m' := by
  constructor
  · intro i v hv
    have hi : i < 8 := (List.getElem?_eq_some_iff.mp hv).1
    rw [(h.part (by omega)).load]
    exact saved.words i v hv
  · have hmask : Agree m m' (env.addr + BitVec.ofNat 64 64) 8 := h.part (by omega)
    exact hmask.load.trans saved.mask

/-- From `c` on, whatever runs in between, `k` calls of `longjmp` each find the buffer as the
one before left it and return from the call of `setjmp` in `c₀`. -/
def Repeats (M : Image Label) (env : JmpBuf) (c₀ : Cpu) : Nat → Cpu → Prop
  | 0, _ => True
  | k + 1, c =>
    ∀ c', c'.rip = M.symbols .longjmp → c'.regs .rdi = env.addr →
      Agree c.mem c'.mem env.addr 72 →
      ∃ c'', M.Steps c' c'' ∧ Resumed env c₀ c' c'' ∧ Repeats M env c₀ k c''

theorem repeats_of_saved (linked : Linked M) (clear : Clear env (c₀.regs .rsp))
    (saved : Saved env c₀ c.mem) (k : Nat) : Repeats M env c₀ k c := by
  induction k generalizing c with
  | zero => trivial
  | succ k ih =>
    intro c' hrip hrdi hbuf
    have saved' := saved.agree hbuf
    obtain ⟨c'', hs, resumed, -⟩ := longjmp_resumes linked hrip hrdi saved' clear
    exact ⟨c'', hs, resumed, ih (saved'.agree resumed.buffer)⟩

/-- `setjmp` returns zero to its caller, and again as often as `longjmp` is called. -/
theorem setjmp_longjmp (M : Image Label) (linked : Linked M) (env : JmpBuf) (c : Cpu)
    (hrip : c.rip = M.symbols .setjmp) (hrdi : c.regs .rdi = env.addr)
    (clear : Clear env (c.regs .rsp)) :
    ∃ c', M.Steps c c' ∧ c'.rip = load 8 c.mem (c.regs .rsp) ∧ c'.regs .rsp = c.regs .rsp + 8 ∧
      c'.regs .rax = 0 ∧ ∀ k, Repeats M env c k c' := by
  obtain ⟨c', hs, hret, hsp, hax, saved⟩ := setjmp_saves linked hrip hrdi clear
  exact ⟨c', hs, hret, hsp, hax, repeats_of_saved linked clear saved⟩

end RoundTrip

namespace Demo

def image : Image Label :=
  .assemble 0x401000 (sys_rt_sigprocmask ++ setjmp ++ longjmp) fun c => (-38, c.mem, c.mask)

def env : JmpBuf where
  addr := 0x8000
  not_null := by decide

/-- `setjmp` called with SIGINT blocked. -/
def call : Cpu where
  regs
    | .rdi => 0x8000
    | .rsp => 0x6000
    | .rbx => 3
    | _ => 0
  rip := image.symbols .setjmp
  rflags := 0x202
  mem := store 8 (fun _ => 0) (0x6000 : Word) (0x402345 : Word)
  mask := .of 2

end Demo

theorem setjmp_longjmp_demo :
    ∃ c', Demo.image.Steps Demo.call c' ∧ c'.rip = 0x402345 ∧ c'.regs .rsp = 0x6008 ∧
      c'.regs .rax = 0 ∧ ∀ k, Repeats Demo.image Demo.env Demo.call k c' := by
  have linked : Linked Demo.image := by
    constructor <;> decide
  have clear : Clear Demo.env (Demo.call.regs .rsp) := by
    unfold Clear
    decide +kernel
  obtain ⟨c', hs, hrip, hsp, hax, hk⟩ :=
    setjmp_longjmp Demo.image linked Demo.env Demo.call rfl rfl clear
  refine ⟨c', hs, ?_, hsp, hax, hk⟩
  rw [hrip]
  exact load_store_same _ _ _ (by decide)

end UnixProgramming.Libmini.Proofs
