import UnixProgramming.Sdb.Machine
import UnixProgramming.Sdb.Proofs.Moves

namespace UnixProgramming.Sdb.Proofs
open Lib

section Words

theorem byteOf_and (u v : Word) (i : Nat) : byteOf (u &&& v) i = byteOf u i &&& byteOf v i := by
  simp [byteOf, BitVec.extractLsb'_and]

theorem byteOf_or (u v : Word) (i : Nat) : byteOf (u ||| v) i = byteOf u i ||| byteOf v i := by
  simp [byteOf, BitVec.extractLsb'_or]

/-- `bp_patch` changes the low byte of the word and no other. -/
theorem byteOf_patchWord (v : Word) {i : Nat} (hi : i < 8) :
    byteOf (patchWord v) i = if i = 0 then 0xcc else byteOf v i := by
  have keep : ∀ b : Byte, b &&& 0xff ||| 0 = b := by decide
  have drop : ∀ b : Byte, b &&& 0 ||| 0xcc = 0xcc := by decide
  have mask : ∀ i < 8, byteOf (0xffffffffffffff00 : Word) i = if i = 0 then 0 else 0xff := by
    decide
  have code : ∀ i < 8, byteOf (0xcc : Word) i = if i = 0 then 0xcc else 0 := by decide
  unfold patchWord
  rw [byteOf_or, byteOf_and, mask i hi, code i hi]
  by_cases h : i = 0
  · simp only [if_pos h]
    exact drop _
  · simp only [if_neg h]
    exact keep _

/-- Memory after `bp_patch` at `a`. -/
def arm (m : Memory 64) (a : Word) : Memory 64 := store 8 m a (patchWord (load 8 m a))

theorem arm_eq (m : Memory 64) (a : Word) : arm m a = overlay m [a] 0xcc := by
  apply eq_overlay
  · intro x hx
    rw [List.mem_singleton.mp hx]
    unfold arm
    rw [store_inside _ _ _ (by simp), offset_self, byteOf_patchWord _ (by omega), if_pos rfl]
  · intro x hx
    have hne : offset a x ≠ 0 := fun h => hx (List.mem_singleton.mpr (eq_of_offset_zero h))
    unfold arm
    by_cases ho : offset a x < 8
    · rw [store_inside _ _ _ ho, byteOf_patchWord _ ho, if_neg hne]
      have hb : byteOf (load 8 m a) (offset a x) = m (a + BitVec.ofNat 64 (offset a x)) :=
        byteOf_load m a ho
      rw [add_offset] at hb
      exact hb
    · exact store_outside _ _ _ (by omega)

theorem overlay_overlay (m : Memory 64) (s t : List Word) (v : Byte) :
    overlay (overlay m s v) t v = overlay m (s ++ t) v := by
  apply eq_overlay
  · intro x hx
    by_cases ht : x ∈ t
    · exact overlay_mem ht
    · rw [overlay_not_mem ht]
      exact overlay_mem ((List.mem_append.mp hx).resolve_right ht)
  · intro x hx
    rw [overlay_not_mem (fun h => hx (List.mem_append.mpr (.inr h))),
      overlay_not_mem (fun h => hx (List.mem_append.mpr (.inl h)))]

end Words

section Status

theorem stop_not_exited (s : Signal) : WIFEXITED (stopStatus s) = false := by
  revert s
  decide

theorem stop_stopped (s : Signal) : WIFSTOPPED (stopStatus s) = true := by
  revert s
  decide

theorem exit_exited (code : Byte) : WIFEXITED (exitStatus code) = true := by
  revert code
  decide +kernel

theorem exit_not_stopped (code : Byte) : WIFSTOPPED (exitStatus code) = false := by
  revert code
  decide +kernel

theorem kill_not_exited (s : Signal) (core : Bool) : WIFEXITED (killStatus s core) = false := by
  revert s core
  decide

theorem kill_not_stopped (s : Signal) (core : Bool) : WIFSTOPPED (killStatus s core) = false := by
  revert s core
  decide

end Status

section Find
variable {d : Debugger} {addr : Word} {i : Nat}

theorem bpFind_some (h : d.bpFindByAddr addr = some i) : ∃ b, d.bp[i]? = some b ∧ b.addr = addr := by
  obtain ⟨hlt, hp, _⟩ := List.findIdx?_eq_some_iff_getElem.mp h
  exact ⟨d.bp[i], List.getElem?_eq_getElem hlt, by simpa using hp⟩

theorem bpFind_none : d.bpFindByAddr addr = none ↔ addr ∉ d.bp.map (·.addr) := by
  rw [Debugger.bpFindByAddr, List.findIdx?_eq_none_iff, List.mem_map]
  constructor
  · intro h hm
    obtain ⟨b, hb, ha⟩ := hm
    have := h b hb
    simp [ha] at this
  · intro h b hb
    have hne : b.addr ≠ addr := fun ha => h ⟨b, hb, ha⟩
    simpa using hne

end Find

/-- A debugger's world with another state of the child. -/
def World.put {η : Type} (w : World (Machine η)) (c : Child η) : World (Machine η) :=
  { w with os := w.os.put c }

/-- `c` is the child the record names, stopped and open to every request. -/
structure Live {η : Type} (w : World (Machine η)) (c : Child η) : Prop where
  proc : w.os.proc = some (.stopped c)
  pid : w.dbg.pid = w.os.pid

/-- `reset_rip` on a stopped child. -/
def rewind {η : Type} (d : Debugger) (c : Child η) : Child η :=
  if (d.bpFindByAddr (c.regs .rip - 1)).isSome then
    { c with regs := c.regs.set .rip (c.regs .rip - 1) }
  else c

section Requests
variable {η : Type} {T : Isa η} {fuel : Nat} {B : Host (Machine η)} {w : World (Machine η)}
  {c : Child η} {E : Halt → World (Machine η) → Prop}

theorem Live.child (h : Live w c) : w.os.child w.dbg.pid = some c := by
  simp [Machine.child, h.proc, h.pid]

theorem live_of_child (h : w.os.child w.dbg.pid = some c) : Live w c := by
  unfold Machine.child at h
  split at h
  · rename_i c' hp
    split at h
    · rename_i hpid
      cases h
      exact ⟨hp, hpid⟩
    · cases h
  · cases h

/-- The child is stopped in RUNNING and passes `p`. -/
def checkStopped (w : World (Machine η)) (p : Child η → Bool) : Bool :=
  w.dbg.stat = .running && (w.os.child w.dbg.pid).any p

theorem checked_stopped {p : Child η → Bool} (h : checkStopped w p = true) :
    w.dbg.stat = .running ∧ ∃ c, Live w c ∧ p c = true := by
  obtain ⟨running, h⟩ := Bool.and_eq_true_iff.mp h
  obtain ⟨c, hc, hp⟩ := (Option.any_eq_true _ _).mp h
  exact ⟨of_decide_eq_true running, c, live_of_child hc, hp⟩

@[simp] theorem went_eq_some {s : Step η} : s.went = some c ↔ s = .on c := by
  cases s <;> simp [Step.went]

theorem Live.put (h : Live w c) (c' : Child η) : Live (World.put w c') c' := ⟨rfl, h.pid⟩

theorem Live.put_self (h : Live w c) : World.put w c = w := by
  have ho : w.os.put c = w.os := by
    rw [Machine.put, ← h.proc]
  rw [World.put, ho]

theorem wp_bpPatch_live (h : Live w c) {a : Word} {Q : Word → World (Machine η) → Prop} :
    Wp (bpPatch (machineHost T fuel B) a) Q E w ↔
      Q (load 8 c.mem a) (World.put w { c with mem := arm c.mem a }) := by
  have hc := h.child
  simp [bpPatch, machineHost, Machine.peek, Machine.poke, hc, World.put, arm]

theorem wp_bpUnpatch_live (h : Live w c) {b : BreakPt} {Q : Unit → World (Machine η) → Prop} :
    Wp (bpUnpatch (machineHost T fuel B) b) Q E w ↔
      Q () (World.put w { c with mem := store 8 c.mem b.addr b.code }) := by
  have hc := h.child
  simp [bpUnpatch, machineHost, Machine.poke, hc, World.put]

theorem wp_bpCheck_live (h : Live w c) {Q : Option Nat → World (Machine η) → Prop} :
    Wp (bpCheck (machineHost T fuel B)) Q E w ↔ Q (w.dbg.bpFindByAddr (c.regs .rip)) w := by
  have hc := h.child
  simp [bpCheck, machineHost, hc]

theorem resetRip_live (h : Live w c) :
    Wp (resetRip (machineHost T fuel B)) (fun _ w' => core w' = core (World.put w (rewind w.dbg c)))
      (fun _ _ => False) w := by
  have hc := h.child
  simp only [resetRip, wp_bind, wp_dbg, wp_ptraceGetRegs]
  simp only [machineHost, hc, Option.map_some]
  cases hf : w.dbg.bpFindByAddr (c.regs .rip - 1) with
  | none =>
    rw [wp_pure, rewind, hf]
    exact congrArg core h.put_self.symm
  | some i =>
    obtain ⟨b, hb, _⟩ := bpFind_some hf
    simp only [wp_bind, wp_ptraceSetRegs, Machine.setRegs, hc, hb, wp_deref_some, if_pos]
    refine (prints_showBreak _ b _).mono ?_ (fun _ _ h' => h'.2)
    intro _ w' h'
    rw [h', rewind, hf]
    rfl

end Requests

/-- The world after a wait in `cmd` on a live child; `f` is what is done to a child
that has stopped. -/
inductive Waited {η : Type} (w : World (Machine η)) (f : Child η → Child η) :
    Halted η → World (Machine η) → Prop
  | stop (s : Signal) (c : Child η) (w' : World (Machine η))
      (dbg : w'.dbg = { w.dbg with status := stopStatus s })
      (os : w'.os = w.os.put (f c))
      (calls : w'.calls = .wait .cmd w.dbg.pid (some (stopStatus s)) :: w.calls) :
      Waited w f (.stop s c) w'
  | exit (code : Byte) (w' : World (Machine η))
      (dbg : stopRecord { w.dbg with status := exitStatus code } = some w'.dbg)
      (os : w'.os = { w.os with proc := none })
      (calls : w'.calls =
        .kill w.dbg.pid :: .wait .cmd w.dbg.pid (some (exitStatus code)) :: w.calls) :
      Waited w f (.exit code) w'
  | killed (s : Signal) (dumped : Bool) (w' : World (Machine η))
      (dbg : w'.dbg = { w.dbg with status := killStatus s dumped })
      (os : w'.os = { w.os with proc := none })
      (calls : w'.calls = .wait .cmd w.dbg.pid (some (killStatus s dumped)) :: w.calls) :
      Waited w f (.killed s dumped) w'

/-- How `cmd` can fail to come back from a live child. -/
def Stuck {η : Type} (w : World (Machine η)) (went : Option (Halted η)) (e : Halt) : Prop :=
  (e = .hang ∧ went = none) ∨
    (e = .crash ∧ w.dbg.ptextHdr = none ∧ ∃ code, went = some (.exit code))

section Cmd
variable {η : Type} {T : Isa η} {fuel : Nat} {B : Host (Machine η)} {w : World (Machine η)}
  {c : Child η}

/-- `stop_debugger` after the wait has reaped the child. -/
theorem stopDebugger_reaped (running : w.dbg.stat = .running) (gone : w.os.proc = none) :
    Wp (stopDebugger (machineHost T fuel B))
      (fun _ w' => stopRecord w.dbg = some w'.dbg ∧ w'.os = w.os ∧
        w'.calls = .kill w.dbg.pid :: w.calls)
      (fun e _ => e = .crash ∧ w.dbg.ptextHdr = none) w := by
  have hk : (machineHost T fuel B).kill w.dbg.pid w.os = (false, w.os) := by
    simp [machineHost, Machine.kill, gone]
  have init : w.dbg.stat ≠ .init := by simp [running]
  simp only [stopDebugger, killChild, wp_bind, wp_dbg, wp_ite, wp_sysKill, hk, if_neg init]
  refine ⟨fun _ => ⟨fun hf => absurd hf (by simp), fun _ => ?_⟩, fun hr => absurd running hr⟩
  cases ht : w.dbg.ptextHdr with
  | none => exact ⟨rfl, rfl⟩
  | some ptext =>
    have hr : stopRecord w.dbg = some (if ptext.vaddr = 0 then w.dbg.unbase else w.dbg).stopped := by
      simp [stopRecord, running, ht]
    simp only [wp_pure, wp_deref_some, wp_ite, wp_bind, wp_setDbg, hr]
    refine ⟨fun hv => ?_, fun hv => ?_⟩
    · exact ⟨by rw [if_pos hv], trivial, trivial⟩
    · exact ⟨by rw [if_neg hv], trivial, trivial⟩

theorem cmd_live (h : Live w c) (running : w.dbg.stat = .running) (how : Resume) :
    Wp (cmd (machineHost T fuel B) how)
      (fun _ w' => ∃ e, c.go T fuel how = some e ∧ Waited w (rewind w.dbg) e w')
      (fun e _ => Stuck w (c.go T fuel how) e) w := by
  have hc := h.child
  simp only [cmd, wp_bind, wp_dbg, wp_ptraceResume]
  have hr : (machineHost T fuel B).resume how w.dbg.pid w.os =
      { w.os with proc := some (.resumed how c) } := by
    simp [machineHost, Machine.resume, hc]
  rw [hr]
  cases hg : c.go T fuel how with
  | none =>
    have hw : (machineHost T fuel B).waitpid w.dbg.pid { w.os with proc := some (.resumed how c) } =
        (.never, { w.os with proc := some (.resumed how c) }) := by
      simp [machineHost, Machine.waitpid, h.pid, hg]
    rw [wp_wait_never hw]
    exact .inl ⟨rfl, rfl⟩
  | some e =>
    have hw : (machineHost T fuel B).waitpid w.dbg.pid { w.os with proc := some (.resumed how c) } =
        { w.os with proc := some (.resumed how c) }.halt e := by
      simp [machineHost, Machine.waitpid, h.pid, hg]
    cases e with
    | stop s c' =>
      rw [wp_wait_status hw]
      simp only [wp_bind, wp_setDbg, wp_ite, stop_not_exited, stop_stopped]
      refine ⟨fun hf => absurd hf (by simp), fun _ => ⟨fun _ => ?_, fun hf => absurd trivial hf⟩⟩
      have hlive : Live ({ w with
          dbg := { w.dbg with status := stopStatus s }
          os := w.os.put c'
          calls := .wait .cmd w.dbg.pid (some (stopStatus s)) :: w.calls }) c' :=
        ⟨rfl, h.pid⟩
      refine (resetRip_live hlive).mono ?_ (fun _ _ hf => hf.elim)
      intro _ w' hcore
      obtain ⟨hd, ho, hcl⟩ := core_eq hcore
      exact ⟨_, rfl, .stop s c' w' hd ho hcl⟩
    | exit code =>
      rw [wp_wait_status hw]
      simp only [wp_bind, wp_setDbg, wp_ite, exit_exited]
      refine ⟨fun _ => ?_, fun hf => absurd trivial hf⟩
      refine Wp.mono (stopDebugger_reaped ?_ ?_) ?_ ?_
      · exact running
      · rfl
      · intro _ w' hs
        obtain ⟨hd, ho, hcl⟩ := hs
        have hend : ∀ out, Waited w (rewind w.dbg) (.exit code) { w' with out := out } :=
          fun out => .exit code _ hd ho hcl
        rw [wp_ite]
        exact ⟨fun _ => ⟨_, rfl, hend _⟩, fun _ => ⟨_, rfl, hend _⟩⟩
      · intro e w' hs
        exact .inr ⟨hs.1, hs.2, code, rfl⟩
    | killed s dumped =>
      rw [wp_wait_status hw]
      simp only [wp_bind, wp_setDbg, wp_ite, kill_not_exited, kill_not_stopped]
      refine ⟨fun hf => absurd hf (by simp), fun _ => ⟨fun hf => absurd hf (by simp), fun _ => ?_⟩⟩
      exact ⟨_, rfl, .killed s dumped _ rfl rfl rfl⟩

theorem cmd_gone (gone : w.os.proc = none) (how : Resume) :
    Wp (cmd (machineHost T fuel B) how) (fun _ _ => False) (fun e _ => e = .exit 1) w := by
  have hr : (machineHost T fuel B).resume how w.dbg.pid w.os = w.os := by
    simp [machineHost, Machine.resume, Machine.child, gone]
  have hw : (machineHost T fuel B).waitpid w.dbg.pid w.os = (.failed, w.os) := by
    simp [machineHost, Machine.waitpid, gone]
  simp only [cmd, wp_bind, wp_dbg, wp_ptraceResume]
  rw [wp_wait_failed (by rw [hr]; exact hw)]
  exact rfl

theorem bpPatch_gone (gone : w.os.proc = none) (a : Word) :
    Wp (bpPatch (machineHost T fuel B) a) (fun _ w' => core w' = core w) (fun _ _ => False) w := by
  have hp : (machineHost T fuel B).poke w.dbg.pid a
      (patchWord ((machineHost T fuel B).peek w.dbg.pid a w.os)) w.os = (false, w.os) := by
    simp [machineHost, Machine.poke, Machine.child, gone]
  simp only [bpPatch, wp_bind, wp_dbg, wp_ptracePeek, wp_ptracePoke, hp, wp_ite]
  exact ⟨fun hf => absurd hf (by simp), fun _ => rfl⟩

end Cmd

/-- The breakpoint at `rip`. -/
def underRip {η : Type} (d : Debugger) (c : Child η) : Option BreakPt :=
  (d.bpFindByAddr (c.regs .rip)).bind (d.bp[·]?)

/-- The child that `si` steps: the breakpoint under its `rip` is lifted. -/
def lifted {η : Type} (d : Debugger) (c : Child η) : Child η :=
  match underRip d c with
  | none => c
  | some b => { c with mem := store 8 c.mem b.addr b.code }

/-- The breakpoint at `addr`, if there is one, is armed again. -/
def rearmed {η : Type} (d : Debugger) (addr : Word) (c : Child η) : Child η :=
  if (d.bpFindByAddr addr).isSome then { c with mem := arm c.mem addr } else c

section Free
variable {η : Type} {d : Debugger} {c : Child η}

theorem underRip_free (free : d.bpFindByAddr (c.regs .rip) = none) : underRip d c = none := by
  simp [underRip, free]

theorem lifted_free (free : d.bpFindByAddr (c.regs .rip) = none) : lifted d c = c := by
  rw [lifted, underRip_free free]

end Free

theorem singlestep_halts {η : Type} (T : Isa η) (fuel : Nat) (c : Child η) :
    ∃ e, c.go T fuel .singlestep = some e := by
  cases hs : c.step T with
  | on c' => exact ⟨.stop SIGTRAP c', by simp [Child.go, hs]⟩
  | halted e => exact ⟨e, by simp [Child.go, hs]⟩

section Step
variable {η : Type} {T : Isa η} {fuel : Nat} {B : Host (Machine η)} {w : World (Machine η)}
  {c : Child η}

/-- However the child stops or ends, the breakpoints are the same, in the same order. -/
theorem Waited.ids {f : Child η → Child η} {e : Halted η} {w' : World (Machine η)}
    (h : Waited w f e w') : w'.dbg.bp.map (·.id) = w.dbg.bp.map (·.id) := by
  cases h with
  | stop s c' w' dbg os calls => rw [dbg]
  | exit code w' dbg os calls =>
    have hs := stopRecord_ids dbg
    exact hs
  | killed s dumped w' dbg os calls => rw [dbg]

/-- What the child was before it went on does not matter. -/
theorem Waited.of_put {c₀ : Child η} {f : Child η → Child η} {e : Halted η} {w' : World (Machine η)}
    (h : Waited (World.put w c₀) f e w') : Waited w f e w' := by
  cases h with
  | stop s c' w' dbg os calls => exact .stop s c' w' dbg os calls
  | exit code w' dbg os calls => exact .exit code w' dbg os calls
  | killed s dumped w' dbg os calls => exact .killed s dumped w' dbg os calls

/-- After the step `si` arms the breakpoint again, if there still is a child. -/
theorem rearm_live (h : Live w c) {i : Nat} {b : BreakPt} (hf : w.dbg.bpFindByAddr (c.regs .rip) = some i)
    (hb : w.dbg.bp[i]? = some b) (ha : b.addr = c.regs .rip) {e : Halted η} {w₁ : World (Machine η)}
    (hw : Waited w (rewind w.dbg) e w₁) :
    Wp (do
        let d ← dbg
        let current ← deref d.bp[i]?
        let _ ← bpPatch (machineHost T fuel B) current.addr)
      (fun _ w' => Waited w (fun c' => rearmed w.dbg (c.regs .rip) (rewind w.dbg c')) e w')
      (fun _ _ => False) w₁ := by
  simp only [wp_bind, wp_dbg]
  have hlen : w₁.dbg.bp.length = w.dbg.bp.length := by
    simpa using congrArg List.length hw.ids
  obtain ⟨hi, _⟩ := List.getElem?_eq_some_iff.mp hb
  rw [List.getElem?_eq_getElem (by omega), wp_deref_some, wp_bind]
  cases hw with
  | stop s c' w' dbg os calls =>
    have hlive : Live w₁ (rewind w.dbg c') := by
      refine ⟨by rw [os]; rfl, ?_⟩
      rw [dbg, os]
      exact h.pid
    have hat : w₁.dbg.bp[i].addr = c.regs .rip := by
      have hb₁ : w₁.dbg.bp[i]? = some b := by rw [dbg]; exact hb
      rw [List.getElem?_eq_getElem (by omega)] at hb₁
      rw [Option.some.inj hb₁, ha]
    rw [wp_bpPatch_live hlive, wp_pure, hat]
    refine .stop s c' _ dbg ?_ calls
    show w₁.os.put _ = w.os.put _
    rw [os, rearmed, hf]
    rfl
  | exit code w' dbg os calls =>
    refine (bpPatch_gone (by rw [os]) _).mono ?_ (fun _ _ hf => hf.elim)
    intro _ w₂ hcore
    obtain ⟨hd, ho, hc⟩ := core_eq hcore
    exact .exit code w₂ (by rw [hd]; exact dbg) (ho.trans os) (hc.trans calls)
  | killed s dumped w' dbg os calls =>
    refine (bpPatch_gone (by rw [os]) _).mono ?_ (fun _ _ hf => hf.elim)
    intro _ w₂ hcore
    obtain ⟨hd, ho, hc⟩ := core_eq hcore
    exact .killed s dumped w₂ (hd.trans dbg) (ho.trans os) (hc.trans calls)

theorem si_live (h : Live w c) (running : w.dbg.stat = .running) :
    Wp (cmdSi (machineHost T fuel B))
      (fun _ w' => ∃ e, (lifted w.dbg c).go T fuel .singlestep = some e ∧
        Waited w (fun c' => rearmed w.dbg (c.regs .rip) (rewind w.dbg c')) e w')
      (fun e _ => Stuck w ((lifted w.dbg c).go T fuel .singlestep) e) w := by
  simp only [cmdSi, wp_bind, wp_dbg, wp_ite]
  refine ⟨fun hn => absurd running hn, fun _ => ?_⟩
  rw [wp_bpCheck_live h]
  cases hf : w.dbg.bpFindByAddr (c.regs .rip) with
  | none =>
    have hr : (fun c' : Child η => rearmed w.dbg (c.regs .rip) (rewind w.dbg c')) = rewind w.dbg := by
      funext c'
      simp [rearmed, hf]
    rw [lifted_free hf, hr]
    exact cmd_live h running .singlestep
  | some i =>
    obtain ⟨b, hb, ha⟩ := bpFind_some hf
    have hl : lifted w.dbg c = { c with mem := store 8 c.mem b.addr b.code } := by
      simp [lifted, underRip, hf, hb]
    simp only [wp_bind, hb, wp_deref_some]
    rw [wp_bpUnpatch_live h, wp_bind, ← hl]
    refine (cmd_live (h.put (lifted w.dbg c)) running .singlestep).mono ?_ (fun _ _ hs => hs)
    rintro _ w₁ ⟨e, hgo, hw⟩
    apply (rearm_live h hf hb ha hw.of_put).mono
    · exact fun _ _ hr => ⟨e, hgo, hr⟩
    · exact fun _ _ hf => hf.elim

theorem Waited.live {f : Child η → Child η} {s : Signal} {c' : Child η} {w' : World (Machine η)}
    (h : Waited w f (.stop s c') w') (pid : w.dbg.pid = w.os.pid) : Live w' (f c') := by
  cases h with
  | stop s c' w' dbg os calls =>
    refine ⟨by rw [os]; rfl, ?_⟩
    rw [dbg, os]
    exact pid

/-- `cont` from a state whose first step leaves the child stopped. -/
theorem cont_live (h : Live w c) (running : w.dbg.stat = .running) {n : Nat} {argv : List String}
    {s : Signal} {c₁ : Child η}
    (step : (lifted w.dbg c).go T fuel .singlestep = some (.stop s c₁)) :
    Wp (cmdCont (machineHost T fuel B) (exec (machineHost T fuel B) (n + 1)) argv)
      (fun _ w' => ∃ w₁ e,
        Waited w (fun c' => rearmed w.dbg (c.regs .rip) (rewind w.dbg c')) (.stop s c₁) w₁ ∧
        (rearmed w.dbg (c.regs .rip) (rewind w.dbg c₁)).go T fuel .cont = some e ∧
        Waited w₁ (rewind w.dbg) e w')
      (fun e _ => Stuck w ((rearmed w.dbg (c.regs .rip) (rewind w.dbg c₁)).go T fuel .cont) e) w := by
  simp only [cmdCont, wp_bind, wp_dbg, wp_ite]
  refine ⟨fun hn => absurd running hn, fun _ => ?_⟩
  rw [exec_si]
  refine (si_live h running).mono ?_ ?_
  · intro _ w₁ hend
    obtain ⟨e₁, hgo, hw⟩ := hend
    rw [step] at hgo
    cases hgo
    have hlive := hw.live h.pid
    have hd : w₁.dbg = { w.dbg with status := stopStatus s } := by
      cases hw with
      | stop s c' w' dbg os calls => exact dbg
    have hrw : rewind w₁.dbg = rewind w.dbg (η := η) := by rw [hd]; rfl
    have ht : w₁.dbg.ptextHdr = w.dbg.ptextHdr := by rw [hd]; rfl
    refine (cmd_live hlive (by rw [hd]; exact running) .cont).mono ?_ ?_
    · intro _ w' hend
      obtain ⟨e, hgo, hw'⟩ := hend
      rw [hrw] at hw'
      exact ⟨w₁, e, hw, hgo, hw'⟩
    · intro e _ hs
      unfold Stuck at hs ⊢
      rwa [ht] at hs
  · intro e _ hs
    rw [step] at hs
    rcases hs with ⟨_, hs⟩ | ⟨_, _, _, hs⟩ <;> cases hs

/-- `cont` from a state whose first step ends the child never comes back. -/
theorem cont_ended (h : Live w c) (running : w.dbg.stat = .running) {n : Nat} {argv : List String}
    {e : Halted η} (step : (lifted w.dbg c).go T fuel .singlestep = some e)
    (ended : ∀ s c', e ≠ .stop s c') :
    Wp (cmdCont (machineHost T fuel B) (exec (machineHost T fuel B) (n + 1)) argv)
      (fun _ _ => False)
      (fun e' _ => e' = .exit 1 ∨ (e' = .crash ∧ w.dbg.ptextHdr = none)) w := by
  simp only [cmdCont, wp_bind, wp_dbg, wp_ite]
  refine ⟨fun hn => absurd running hn, fun _ => ?_⟩
  rw [exec_si]
  refine (si_live h running).mono ?_ ?_
  · intro _ w₁ hend
    obtain ⟨e₁, hgo, hw⟩ := hend
    rw [step] at hgo
    cases hgo
    have gone : w₁.os.proc = none := by
      cases hw with
      | stop s c' w' dbg os calls => exact absurd rfl (ended s c')
      | exit code w' dbg os calls => rw [os]
      | killed s dumped w' dbg os calls => rw [os]
    exact (cmd_gone gone .cont).mono (fun _ _ hf => hf) (fun _ _ he => .inl he)
  · intro e' _ hs
    rw [step] at hs
    rcases hs with ⟨_, hs⟩ | ⟨hc, ht, _⟩
    · cases hs
    · exact .inr ⟨hc, ht⟩

end Step

/-- The list of breakpoints after the loop of `cmd_start`. -/
def rebased (base : Word) : List BreakPt → Memory 64 → List BreakPt
  | [], _ => []
  | b :: rest, m =>
    ⟨b.id, b.addr + base, load 8 m (b.addr + base)⟩ :: rebased base rest (arm m (b.addr + base))

theorem rebased_addrs (base : Word) (l : List BreakPt) (m : Memory 64) :
    (rebased base l m).map (·.addr) = l.map (·.addr + base) := by
  induction l generalizing m with
  | nil => rfl
  | cons b rest ih => simp [rebased, ih]

/-- Every saved word has the byte that was at its address before the loop. -/
theorem rebased_code {base : Word} {l : List BreakPt} (m : Memory 64)
    (distinct : (l.map (·.addr + base)).Nodup) :
    ∀ b ∈ rebased base l m, byteOf b.code 0 = m b.addr := by
  induction l generalizing m with
  | nil => simp [rebased]
  | cons a rest ih =>
    obtain ⟨hnew, hrest⟩ := List.nodup_cons.mp distinct
    intro b hb
    rcases List.mem_cons.mp hb with he | hb
    · rw [he]
      have hl : byteOf (load 8 m (a.addr + base)) 0 = m (a.addr + base + BitVec.ofNat 64 0) :=
        byteOf_load m _ (by omega)
      simpa using hl
    · have hm : b.addr ∈ rest.map (·.addr + base) :=
        rebased_addrs base rest _ ▸ List.mem_map.mpr ⟨b, hb, rfl⟩
      have hne : b.addr ∉ [a.addr + base] := by
        intro hin
        rw [List.mem_singleton.mp hin] at hm
        exact hnew hm
      rw [ih _ hrest b hb, arm_eq, overlay_not_mem hne]

/-- What `fscanf` leaves in `begin`. -/
def beginOf {σ : Type} (B : Host σ) (os : σ) (maps : String) : Word :=
  match scanHex maps.toList with
  | .got begin_ _ => begin_
  | _ => B.stackBegin os

def baseOf (ptext : Phdr) (begin_ : Word) : Word := if ptext.vaddr = 0 then begin_ else 0

/-- The tracee right after `execvp`. -/
def fresh {η : Type} (regs : Regs) (hidden : η) (image : Memory 64) : Child η :=
  ⟨regs, hidden, image, image, fun _ => false⟩

/-- The world after `cmd_start` in LOADED. -/
inductive Started {η : Type} (T : Isa η) (B : Host (Machine η)) (w : World (Machine η)) :
    World (Machine η) → Prop
  | failed (w' : World (Machine η)) (spawn : w.os.spawns w.os.forks = none)
      (dbg : w'.dbg = { w.dbg with pid := -1 })
      (os : w'.os = { w.os with forks := w.os.forks + 1 })
      (calls : w'.calls = .fork none :: w.calls) : Started T B w w'
  | ended (pid : Nat) (fate : Fate η) (st : BitVec 32) (w' : World (Machine η))
      (spawn : w.os.spawns w.os.forks = some (pid, fate))
      (dead : ∀ regs hidden image, fate ≠ .ready regs hidden image)
      (dbg : w'.dbg = { w.dbg with pid := pid, status := st })
      (os : w'.os = { w.os with forks := w.os.forks + 1, pid := pid, proc := none })
      (calls : w'.calls = .wait .start pid (some st) :: .fork (some pid) :: w.calls) :
      Started T B w w'
  | ready (pid : Nat) (regs : Regs) (hidden : η) (image : Memory 64) (ptext : Phdr) (base : Word)
      (w' : World (Machine η))
      (spawn : w.os.spawns w.os.forks = some (pid, .ready regs hidden image))
      (text : w.dbg.ptextHdr = some ptext)
      (bias : base = baseOf ptext
        (beginOf B (w.os.spawned pid (fresh regs hidden image)) (T.maps hidden)))
      (dbg : w'.dbg = { w.dbg with
        pid := pid, status := stopStatus SIGTRAP, base := base
        bp := rebased base w.dbg.bp image, stat := .running })
      (os : w'.os = w.os.spawned pid { fresh regs hidden image with
        mem := overlay image (w.dbg.bp.map (·.addr + base)) 0xcc })
      (calls : w'.calls = .wait .start pid (some (stopStatus SIGTRAP)) :: .fork (some pid) :: w.calls) :
      Started T B w w'

section Start
variable {η : Type} {T : Isa η} {fuel : Nat} {B : Host (Machine η)} {w : World (Machine η)}
  {c : Child η}

theorem patchLoop_live (h : Live w c) (base : Word) (l : List BreakPt) :
    Wp (patchLoop (machineHost T fuel B) base l)
      (fun bp w' => bp = rebased base l c.mem ∧
        core w' = core (World.put w { c with mem := overlay c.mem (l.map (·.addr + base)) 0xcc }))
      (fun _ _ => False) w := by
  induction l generalizing w c with
  | nil =>
    refine ⟨rfl, ?_⟩
    rw [List.map_nil, overlay_nil]
    exact congrArg core h.put_self.symm
  | cons b rest ih =>
    simp only [patchLoop, wp_bind]
    rw [wp_bpPatch_live h, wp_bind]
    refine (ih (h.put _)).mono ?_ (fun _ _ hf => hf)
    intro bp w' hend
    obtain ⟨hbp, hcore⟩ := hend
    refine ⟨by rw [hbp]; rfl, ?_⟩
    rw [hcore, arm_eq, overlay_overlay]
    rfl

theorem scanBegin_live (maps : String) :
    Wp (scanBegin (machineHost T fuel B) maps) (fun begin_ w' => begin_ = beginOf B w.os maps ∧ w' = w)
      (fun _ _ => False) w := by
  unfold scanBegin beginOf
  cases scanHex maps.toList with
  | got a rest => exact ⟨rfl, rfl⟩
  | mismatch rest => exact ⟨rfl, rfl⟩
  | eof => exact ⟨rfl, rfl⟩

theorem startAt_live (h : Live w c) (pid : Nat) (begin_ : Word) :
    Wp (startAt (machineHost T fuel B) pid begin_)
      (fun _ w' => ∃ ptext base, w.dbg.ptextHdr = some ptext ∧ base = baseOf ptext begin_ ∧
        w'.dbg = { w.dbg with
          base := base, bp := rebased base w.dbg.bp c.mem, stat := .running } ∧
        w'.os = w.os.put { c with mem := overlay c.mem (w.dbg.bp.map (·.addr + base)) 0xcc } ∧
        w'.calls = w.calls)
      (fun e _ => e = .crash ∧ w.dbg.ptextHdr = none) w := by
  simp only [startAt, wp_bind, wp_dbg]
  cases ht : w.dbg.ptextHdr with
  | none => exact ⟨rfl, rfl⟩
  | some ptext =>
    simp only [wp_deref_some, wp_bind, wp_setDbg]
    have hlive : Live { w with dbg := { w.dbg with base := baseOf ptext begin_ } } c :=
      ⟨h.proc, h.pid⟩
    refine (patchLoop_live hlive (baseOf ptext begin_) w.dbg.bp).mono ?_ (fun _ _ hf => hf.elim)
    intro bp w₁ hend
    obtain ⟨hbp, hcore⟩ := hend
    obtain ⟨hd, ho, hc⟩ := core_eq hcore
    simp only [wp_bind, wp_setDbg, wp_errmsg]
    have hlive₁ : ∀ out, Live { w₁ with
        dbg := { w₁.dbg with bp := bp, stat := .running }, out := out }
        { c with mem := overlay c.mem (w.dbg.bp.map (·.addr + baseOf ptext begin_)) 0xcc } := by
      intro out
      refine ⟨by rw [ho]; rfl, ?_⟩
      rw [hd, ho]
      exact h.pid
    rw [wp_bpCheck_live (hlive₁ _)]
    have hend : ∀ w₂ : World (Machine η),
        core w₂ = core { w₁ with dbg := { w₁.dbg with bp := bp, stat := .running } } →
        ∃ ptext' base, some ptext = some ptext' ∧ base = baseOf ptext' begin_ ∧
          w₂.dbg = { w.dbg with
            base := base, bp := rebased base w.dbg.bp c.mem, stat := .running } ∧
          w₂.os = w.os.put { c with mem := overlay c.mem (w.dbg.bp.map (·.addr + base)) 0xcc } ∧
          w₂.calls = w.calls := by
      intro w₂ h₂
      obtain ⟨hd₂, ho₂, hc₂⟩ := core_eq h₂
      refine ⟨ptext, _, rfl, rfl, ?_, ho₂.trans ho, hc₂.trans hc⟩
      rw [hd₂, hbp]
      dsimp only
      rw [hd]
      rfl
    cases hf : Debugger.bpFindByAddr _ _ with
    | none => exact hend _ rfl
    | some i =>
      obtain ⟨b, hb, _⟩ := bpFind_some hf
      dsimp only at hb ⊢
      rw [wp_bind, hb, wp_deref_some]
      refine (prints_showBreak _ b _).mono ?_ (fun _ _ hf => hf.2.elim)
      intro _ w₂ h₂
      exact hend w₂ h₂

theorem startChild_live (h : Live w c) {pid : Nat} (named : w.dbg.pid = pid) :
    Wp (startChild (machineHost T fuel B) pid)
      (fun _ w' => ∃ ptext base, w.dbg.ptextHdr = some ptext ∧
        base = baseOf ptext (beginOf B w.os (T.maps c.hidden)) ∧
        w'.dbg = { w.dbg with
          base := base, bp := rebased base w.dbg.bp c.mem, stat := .running } ∧
        w'.os = w.os.put { c with mem := overlay c.mem (w.dbg.bp.map (·.addr + base)) 0xcc } ∧
        w'.calls = w.calls)
      (fun e _ => e = .crash ∧ w.dbg.ptextHdr = none) w := by
  have hc := h.child
  rw [named] at hc
  have hmaps : (machineHost T fuel B).maps pid w.os = some (T.maps c.hidden) := by
    simp [machineHost, hc]
  simp only [startChild, wp_bind, wp_ask, hmaps, wp_deref_some]
  refine (scanBegin_live _).mono ?_ (fun _ _ hf => hf.elim)
  intro begin_ w₀ h₀
  obtain ⟨hb, hw⟩ := h₀
  subst hw hb
  exact startAt_live h pid _

theorem ptextHdr_called (d : Debugger) (pid : Int) (status : BitVec 32) :
    ({ d with pid := pid, status := status } : Debugger).ptextHdr = d.ptextHdr := rfl

theorem start_loaded (loaded : w.dbg.stat = .loaded) (argv : List String) :
    Wp (cmdStart (machineHost T fuel B) argv) (fun _ w' => Started T B w w')
      (fun e _ => e = .crash ∧ w.dbg.ptextHdr = none ∧ ∃ pid regs hidden image,
        w.os.spawns w.os.forks = some (pid, .ready regs hidden image)) w := by
  simp only [cmdStart, wp_bind, wp_dbg, wp_ite, wp_sysFork]
  refine ⟨fun hi => by simp [loaded] at hi, fun _ => ⟨fun hr => by simp [loaded] at hr, fun _ => ?_⟩⟩
  have hfork : ∀ program argv, (machineHost T fuel B).fork program argv w.os = w.os.fork :=
    fun _ _ => rfl
  rw [hfork]
  cases hs : w.os.spawns w.os.forks with
  | none =>
    have hm : w.os.fork = (none, { w.os with forks := w.os.forks + 1 }) := by
      simp [Machine.fork, hs]
    rw [hm]
    exact .failed _ hs rfl rfl rfl
  | some child =>
    obtain ⟨pid, fate⟩ := child
    have hm : w.os.fork = (some pid, { w.os with
        forks := w.os.forks + 1, pid := pid, proc := some (.embryo fate) }) := by
      simp [Machine.fork, hs]
    rw [hm]
    simp only [wp_bind, wp_setDbg]
    have hwait : ∀ dbg out calls, (machineHost T fuel B).waitpid pid
        (⟨dbg, { w.os with forks := w.os.forks + 1, pid := pid, proc := some (.embryo fate) }, out,
          calls⟩ : World (Machine η)).os =
        { w.os with
          forks := w.os.forks + 1, pid := pid, proc := some (.embryo fate) }.halt fate.halted := by
      intro dbg out calls
      simp [machineHost, Machine.waitpid]
    cases fate with
    | exited code =>
      rw [wp_wait_status (hwait _ _ _)]
      simp only [wp_bind, wp_setDbg, wp_ite, exit_not_stopped]
      refine ⟨fun _ => ?_, fun hf => absurd rfl hf⟩
      exact .ended pid _ _ _ hs (by simp) rfl rfl rfl
    | killed s dumped =>
      rw [wp_wait_status (hwait _ _ _)]
      simp only [wp_bind, wp_setDbg, wp_ite, kill_not_stopped]
      refine ⟨fun _ => ?_, fun hf => absurd rfl hf⟩
      exact .ended pid _ _ _ hs (by simp) rfl rfl rfl
    | ready regs hidden image =>
      rw [wp_wait_status (hwait _ _ _)]
      simp only [wp_bind, wp_setDbg, wp_ite, stop_stopped]
      refine ⟨fun hf => absurd hf (by simp), fun _ => ?_⟩
      refine Wp.mono (startChild_live (c := fresh regs hidden image) ?_ ?_) ?_ ?_
      · exact ⟨rfl, rfl⟩
      · rfl
      · intro _ w' hend
        obtain ⟨ptext, base, ht, hb, hd, ho, hcl⟩ := hend
        have ht' : w.dbg.ptextHdr = some ptext := (ptextHdr_called w.dbg pid _).symm.trans ht
        exact .ready pid regs hidden image ptext base w' hs ht' hb hd ho hcl
      · intro e _ hf
        have ht : w.dbg.ptextHdr = none := (ptextHdr_called w.dbg pid _).symm.trans hf.2
        refine ⟨hf.1, ht, pid, regs, hidden, image, ?_⟩
        rfl

end Start

end UnixProgramming.Sdb.Proofs
