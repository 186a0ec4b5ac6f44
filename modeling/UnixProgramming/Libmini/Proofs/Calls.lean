import UnixProgramming.Libmini.Calls
import UnixProgramming.Libmini.Proofs.Jump

namespace UnixProgramming.Libmini.Proofs
open Lib

/-! ## Wrappers -/

/-- The `errno` that a result of the kernel stands for. -/
def errnoOf (r : Word) : Word := if r.slt 0 then -r else 0

section Wrappers
variable {kernel : List Trap → Trap → Word} {w : Wrapper}

theorem RET_WRAP_ok {α : Type} (type : Word → α) (onFail : α) (r : Word) (p : Proc) :
    RET_WRAP type onFail r p =
      .ok (if r.slt 0 then onFail else type r) { p with errno := errnoOf r } := by
  unfold RET_WRAP errnoOf
  cases r.slt 0 with
  | true => rfl
  | false => rfl

theorem wrapper_ok {α : Type} (kernel : List Trap → Trap → Word) (s : Stub) (args : List Arg)
    (type : Word → α) (onFail : α) (p : Proc) :
    wrapper kernel s args type onFail p =
      .ok (if (kernel p.calls ⟨s.number, args⟩).slt 0 then onFail
        else type (kernel p.calls ⟨s.number, args⟩))
      { errno := errnoOf (kernel p.calls ⟨s.number, args⟩)
        calls := p.calls ++ [⟨s.number, args⟩] } := by
  have hsys : sys kernel s args p =
      .ok (kernel p.calls ⟨s.number, args⟩) { p with calls := p.calls ++ [⟨s.number, args⟩] } := rfl
  simp only [wrapper, bind, EStateM.bind, hsys, RET_WRAP_ok]

/-- Where a caller puts arguments, and where the kernel looks for them. -/
def callRegs : List Gpr := [.rdi, .rsi, .rdx, .rcx, .r8, .r9]

def trapRegs : List Gpr := [.rdi, .rsi, .rdx, .r10, .r8, .r9]

/-- The register holds the argument; half a register says nothing of the other half. -/
def Arg.In : Arg → Word → Prop
  | .int v, r => r.setWidth 32 = v
  | .long v, r => r = v
  | .ptr (.addr a), r => r = a
  | .ptr (.str _), r => r ≠ 0

/-- A stub enters the kernel with its number and the arguments its caller gave it. -/
theorem gensys_traps {c : Cpu} {s : Stub} {args : List Arg}
    (given : ∀ x ∈ args.zip (callRegs.map c.regs), Arg.In x.1 x.2) :
    (trapped s.number c).regs .rax = s.number ∧
      ∀ x ∈ args.zip (trapRegs.map (trapped s.number c).regs), Arg.In x.1 x.2 := by
  have moved : trapRegs.map (trapped s.number c).regs = callRegs.map c.regs := by
    simp [trapRegs, callRegs, trapped, evals, Op.eval, Gprs.set]
  constructor
  · simp [trapped, evals, Op.eval, Gprs.set]
  · rw [moved]
    exact given

end Wrappers

/-! ## `perror` -/

/-- `errno` is the index of a message. -/
def InTable (e : Word) : Prop := 0 ≤ e.toInt ∧ e.toInt ≤ 34

instance (e : Word) : Decidable (InTable e) :=
  inferInstanceAs (Decidable (0 ≤ e.toInt ∧ e.toInt ≤ 34))

/-- The message for an `errno`. -/
def message (e : Word) : List Char :=
  if InTable e then (errmsg.getD e.toNat "").toList else "Unknown".toList

/-- `write(2, s, strlen(s))` as a system call. -/
def texted (s : List Char) : Trap := ⟨Stub.write.number, [.int 2, .ptr (.str s), .long (strlen s)]⟩

/-- What is written in front of the message. -/
def led : Option (List Char) → List Trap
  | none => []
  | some s => [texted s, texted [':', ' ']]

/-- `perror` returns, and the message after the prefix is the one for `errno` as it was. -/
def Reports (kernel : List Trap → Trap → Word) (pre : Option (List Char)) (p : Proc) : Prop :=
  ∃ p', perror kernel pre p = .ok () p' ∧
    p'.calls = p.calls ++ led pre ++ [texted (message p.errno), texted ['\n']]

section Perror
variable (kernel : List Trap → Trap → Word) {e : Word} {s : List Char}

theorem inTable_iff :
    (e.slt PERRMSG_MIN || PERRMSG_MAX.slt e) = true ↔ ¬InTable e := by
  have hmin : PERRMSG_MIN.toInt = 0 := rfl
  have hmax : PERRMSG_MAX.toInt = 34 := rfl
  rw [Bool.or_eq_true, BitVec.slt_iff_toInt_lt, BitVec.slt_iff_toInt_lt, hmin, hmax, InTable]
  omega

theorem errmsg_index (h : InTable e) : e.toNat < errmsg.length := by
  have hlen : errmsg.length = 35 := rfl
  obtain ⟨hlow, hhigh⟩ := h
  have he := BitVec.toInt_eq_toNat_cond e
  have hlt := e.isLt
  split at he <;> omega

theorem errmsgAt_in (h : InTable e) (p : Proc) : errmsgAt e p = .ok (message e) p := by
  have hi := errmsg_index h
  have hneg : ¬e.toInt < 0 := by
    have := h.1
    omega
  rw [errmsgAt, if_neg hneg, message, if_pos h, List.getD_eq_getElem?_getD,
    List.getElem?_eq_getElem hi]
  rfl

theorem errmsgAt_out (h : ¬InTable e) (p : Proc) : errmsgAt e p = .error .bounds p := by
  by_cases hneg : e.toInt < 0
  · rw [errmsgAt, if_pos hneg]
    rfl
  · have hlen : errmsg.length = 35 := rfl
    have hout : errmsg[e.toNat]? = none := by
      rw [List.getElem?_eq_none_iff, hlen]
      have he := BitVec.toInt_eq_toNat_cond e
      unfold InTable at h
      split at he <;> omega
    rw [errmsgAt, if_neg hneg, hout]
    rfl

/-- `write` as `perror` uses it. -/
theorem write_ok (s : List Char) {n : Word} (hn : n = strlen s) (p : Proc) :
    ∃ got, write kernel 2 (.str s) n p =
      .ok got { errno := errnoOf (kernel p.calls (texted s)), calls := p.calls ++ [texted s] } := by
  rw [hn]
  exact ⟨_, wrapper_ok kernel .write [.int 2, .ptr (.str s), .long (strlen s)] id (-1) p⟩

theorem get_ok (p : Proc) : (get : LibM Proc) p = .ok p p := rfl

theorem writeText_ok (s : List Char) (p : Proc) :
    writeText kernel s p =
      .ok () { errno := errnoOf (kernel p.calls (texted s)), calls := p.calls ++ [texted s] } := by
  obtain ⟨got, hgot⟩ := write_ok kernel s rfl p
  simp only [writeText, bind, EStateM.bind, hgot]
  rfl

/-- The `errno` that `perror` tests. -/
def testedErrno (kernel : List Trap → Trap → Word) (pre : Option (List Char)) (p : Proc) : Word :=
  match pre with
  | none => p.errno
  | some s => errnoOf (kernel (p.calls ++ [texted s]) (texted [':', ' ']))

/-- `perror` behind its test. -/
def perrorTail (kernel : List Trap → Trap → Word) (tested backup : Word) : LibM Unit := do
  if tested.slt PERRMSG_MIN || PERRMSG_MAX.slt tested then
    writeText kernel "Unknown".toList
  else
    let text ← errmsgAt backup
    writeText kernel text
  writeText kernel ['\n']

theorem perror_tail (pre : Option (List Char)) (p : Proc) :
    perror kernel pre p = perrorTail kernel (testedErrno kernel pre p) p.errno
      { errno := testedErrno kernel pre p, calls := p.calls ++ led pre } := by
  cases pre with
  | none =>
    rw [led, List.append_nil]
    rfl
  | some s =>
    have hlead : perror kernel (some s) p =
        (do writeText kernel s; let _ ← write kernel 2 (.str [':', ' ']) 2; let q ← get
            perrorTail kernel q.errno p.errno) p := rfl
    obtain ⟨got, hgot⟩ := write_ok kernel [':', ' '] (n := 2) (by decide)
      { errno := errnoOf (kernel p.calls (texted s)), calls := p.calls ++ [texted s] }
    rw [hlead]
    simp only [bind, EStateM.bind, writeText_ok, hgot, get_ok, led, testedErrno, List.append_assoc,
      List.cons_append, List.nil_append]

theorem perrorTail_ok {tested backup : Word} (h : InTable tested → InTable backup) (p : Proc) :
    ∃ p', perrorTail kernel tested backup p = .ok () p' ∧ p'.calls = p.calls ++
      [texted (if InTable tested then message backup else "Unknown".toList), texted ['\n']] := by
  by_cases ht : InTable tested
  · have hb := h ht
    have htest := mt inTable_iff.mp (not_not_intro ht)
    rw [perrorTail, if_neg htest, if_pos ht]
    simp only [bind, EStateM.bind, errmsgAt_in hb, writeText_ok]
    exact ⟨_, rfl, by simp⟩
  · have htest := inTable_iff.mpr ht
    rw [perrorTail, if_pos htest, if_neg ht]
    simp only [bind, EStateM.bind, writeText_ok]
    exact ⟨_, rfl, by simp⟩

theorem perrorTail_out {tested backup : Word} (ht : InTable tested) (hb : ¬InTable backup)
    (p : Proc) : perrorTail kernel tested backup p = .error .bounds p := by
  have htest := mt inTable_iff.mp (not_not_intro ht)
  rw [perrorTail, if_neg htest]
  simp only [bind, EStateM.bind, errmsgAt_out hb]

theorem message_known (h : InTable e) : message e ≠ "Unknown".toList := by
  have known : ∀ text ∈ errmsg, text.toList ≠ "Unknown".toList := by decide
  rw [message, if_pos h, List.getD_eq_getElem?_getD, List.getElem?_eq_getElem (errmsg_index h)]
  exact known _ (List.getElem_mem _)

theorem texted_injective {t : List Char} (h : texted s = texted t) : s = t := by
  injection h with _ hargs
  simp at hargs
  exact hargs.1

theorem reports_iff (pre : Option (List Char)) (p : Proc) :
    Reports kernel pre p ↔ (InTable p.errno ↔ InTable (testedErrno kernel pre p)) := by
  rw [Reports, perror_tail]
  by_cases ht : InTable (testedErrno kernel pre p)
  · by_cases he : InTable p.errno
    · obtain ⟨p', hrun, hcalls⟩ := perrorTail_ok kernel (fun _ => he)
        { errno := testedErrno kernel pre p, calls := p.calls ++ led pre }
      rw [if_pos ht] at hcalls
      exact iff_of_true ⟨p', hrun, by simp [hcalls]⟩ (iff_of_true he ht)
    · refine iff_of_false ?_ (fun h => he (h.mpr ht))
      rintro ⟨p', hrun, _⟩
      rw [perrorTail_out kernel ht he] at hrun
      cases hrun
  · obtain ⟨p₁, hrun₁, hcalls₁⟩ := perrorTail_ok kernel (fun h => absurd h ht)
      { errno := testedErrno kernel pre p, calls := p.calls ++ led pre }
    rw [if_neg ht] at hcalls₁
    by_cases he : InTable p.errno
    · refine iff_of_false ?_ (fun h => ht (h.mp he))
      rintro ⟨p', hrun, hcalls⟩
      rw [hrun₁] at hrun
      cases hrun
      rw [hcalls₁] at hcalls
      simp only [List.append_assoc, List.append_cancel_left_eq, List.cons.injEq, and_true] at hcalls
      exact message_known he (texted_injective hcalls).symm
    · refine iff_of_true ⟨p₁, hrun₁, ?_⟩ (iff_of_false he ht)
      rw [hcalls₁, message, if_neg he]

/-- The message is right when the test sees `errno` on the side of the table where it was at the
call. -/
theorem perror_reports (pre : Option (List Char)) (p : Proc) :
    Reports kernel pre p ↔ ∀ s, pre = some s →
      (InTable p.errno ↔
        InTable (errnoOf (kernel (p.calls ++ [texted s]) (texted [':', ' '])))) := by
  rw [reports_iff]
  cases pre with
  | none => simp [testedErrno]
  | some s => simp [testedErrno]

/-- ELOOP under a prefix: the writes succeed, and the table is read behind its end. -/
theorem perror_overruns : ¬Reports (fun _ _ => 1) (some "open".toList) ⟨40, []⟩ := by
  rw [reports_iff]
  decide

end Perror

end UnixProgramming.Libmini.Proofs
