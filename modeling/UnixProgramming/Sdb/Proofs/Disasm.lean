import UnixProgramming.Sdb.Proofs.Stepping

namespace UnixProgramming.Sdb.Proofs
open Lib

section Unmask
variable {d : Debugger} {image : Memory 64} {a x : Word}

theorem codeBytes_load (m : Memory 64) (a : Word) : codeBytes (load 8 m a) = window m a 8 := by
  unfold codeBytes window
  apply List.map_congr_left
  intro i hi
  exact byteOf_load m a (List.mem_range.mp hi)

/-- A byte that `disasm` takes for a breakpoint although there is none. -/
def Unsaved (d : Debugger) (image : Memory 64) (x : Word) : Prop :=
  image x = 0xcc ∧ x ∉ d.bp.map (·.addr)

/-- A byte can be shown unless it is `0xcc` without a breakpoint. -/
theorem unmask_isSome {c : Byte} : (d.unmask x c).isSome ↔ (c = 0xcc → x ∈ d.bp.map (·.addr)) := by
  rw [Debugger.unmask]
  by_cases hcc : c = 0xcc
  · rw [if_pos hcc]
    cases hf : d.bpFindByAddr x with
    | none => simpa [hcc] using bpFind_none.mp hf
    | some i =>
      obtain ⟨b, hb, ha⟩ := bpFind_some hf
      have hx : x ∈ d.bp.map (·.addr) := List.mem_map.mpr ⟨b, List.mem_of_getElem? hb, ha⟩
      simpa [hb] using fun _ => List.mem_map.mp hx
  · rw [if_neg hcc]
    simpa using fun h => absurd h hcc

/-- The bytes shown for a window, one by one. -/
theorem unmaskFrom_window {m : Memory 64} {n : Nat} {code : List Byte} :
    unmaskFrom d a (window m a n) = some code ↔ code.length = n ∧
      ∀ i < n, d.unmask (a + BitVec.ofNat 64 i) (m (a + BitVec.ofNat 64 i)) = code[i]? := by
  induction n generalizing a code with
  | zero =>
    rw [window_zero, unmaskFrom, Option.some_inj, eq_comm, ← List.length_eq_zero_iff]
    exact ⟨fun h => ⟨h, by simp⟩, fun h => h.1⟩
  | succ n ih =>
    have hat : ∀ i, a + 1 + BitVec.ofNat 64 i = a + BitVec.ofNat 64 (i + 1) := by
      intro i
      rw [Nat.add_comm, BitVec.ofNat_add, ← BitVec.add_assoc]
      rfl
    rw [window_succ, unmaskFrom]
    constructor
    · intro h
      obtain ⟨c, hc, h⟩ := Option.bind_eq_some_iff.mp h
      obtain ⟨rest, hrest, h⟩ := Option.bind_eq_some_iff.mp h
      cases h
      obtain ⟨hlen, hbytes⟩ := ih.mp hrest
      refine ⟨by simp [hlen], ?_⟩
      intro i hi
      cases i with
      | zero => simpa using hc
      | succ i =>
        rw [← hat]
        exact hbytes i (by omega)
    · rintro ⟨hlen, hbytes⟩
      cases code with
      | nil => cases hlen
      | cons c rest =>
        have hfirst := hbytes 0 (by omega)
        rw [BitVec.add_zero] at hfirst
        have hrest : unmaskFrom d (a + 1) (window m (a + 1) n) = some rest := by
          refine ih.mpr ⟨by simpa using hlen, fun i hi => ?_⟩
          rw [hat]
          exact hbytes (i + 1) (by omega)
        rw [hfirst, hrest]
        rfl

/-- Memory as `disasm` shows it: what a breakpoint has saved stands in for its `0xcc`. -/
def Debugger.unmasked (d : Debugger) (m : Memory 64) : Memory 64 := fun x =>
  (d.unmask x (m x)).getD (m x)

theorem unmaskFrom_own {m : Memory 64} {n : Nat}
    (own : ∀ i < n, m (a + BitVec.ofNat 64 i) = 0xcc →
      a + BitVec.ofNat 64 i ∈ d.bp.map (·.addr)) :
    unmaskFrom d a (window m a n) = some (window (Debugger.unmasked d m) a n) := by
  refine unmaskFrom_window.mpr ⟨length_window _ a n, fun i hi => ?_⟩
  obtain ⟨c, hc⟩ := Option.isSome_iff_exists.mp (unmask_isSome.mpr (own i hi))
  simp [window, hi, Debugger.unmasked, hc]

/-- A window can be shown when each of its bytes can. -/
theorem unmaskFrom_some {m : Memory 64} {n : Nat} :
    (∃ code, unmaskFrom d a (window m a n) = some code) ↔
      ∀ i < n, m (a + BitVec.ofNat 64 i) = 0xcc → a + BitVec.ofNat 64 i ∈ d.bp.map (·.addr) := by
  refine ⟨?_, fun own => ⟨_, unmaskFrom_own own⟩⟩
  rintro ⟨code, hcode⟩ i hi
  obtain ⟨rfl, hbytes⟩ := unmaskFrom_window.mp hcode
  rw [← unmask_isSome, hbytes i hi]
  simpa using hi

/-- `disasm` can tell the byte of `image` at `x`: it is in memory, or else the breakpoint that is
has saved it. -/
structure Original (bp : List BreakPt) (image m : Memory 64) (x : Word) : Prop where
  plain : m x ≠ 0xcc → m x = image x
  masked : m x = 0xcc → x ∈ bp.map (·.addr) ∧ ∀ b ∈ bp, b.addr = x → byteOf b.code 0 = image x

theorem unmask_original {m : Memory 64} (h : Original d.bp image m x) :
    d.unmask x (m x) = some (image x) := by
  rw [Debugger.unmask]
  by_cases hcc : m x = 0xcc
  · obtain ⟨hx, saved⟩ := h.masked hcc
    rw [if_pos hcc]
    cases hf : d.bpFindByAddr x with
    | none => exact absurd hx (bpFind_none.mp hf)
    | some i =>
      obtain ⟨b, hb, ha⟩ := bpFind_some hf
      have hs := saved b (List.mem_of_getElem? hb) ha
      simp [hb, hs]
  · rw [if_neg hcc, h.plain hcc]

theorem unmasked_original {m : Memory 64} (h : Original d.bp image m x) :
    Debugger.unmasked d m x = image x := by
  rw [Debugger.unmasked, unmask_original h, Option.getD_some]

/-- The bytes shown for a window are the image's when each can be told. -/
theorem unmaskFrom_original {m : Memory 64} (n : Nat)
    (h : ∀ i < n, Original d.bp image m (a + BitVec.ofNat 64 i)) :
    unmaskFrom d a (window m a n) = some (window image a n) := by
  rw [unmaskFrom_own fun i hi hcc => ((h i hi).masked hcc).1]
  refine congrArg some (List.map_congr_left fun i hi => ?_)
  exact unmasked_original (h i (List.mem_range.mp hi))

theorem original_overlay (saved : ∀ b ∈ d.bp, byteOf b.code 0 = image b.addr)
    (h : ¬Unsaved d image x) : Original d.bp image (overlay image (d.bp.map (·.addr)) 0xcc) x := by
  by_cases hx : x ∈ d.bp.map (·.addr)
  · constructor
    · exact fun hne => absurd (overlay_mem hx) hne
    · refine fun _ => ⟨hx, fun b hb ha => ?_⟩
      rw [saved b hb, ha]
  · have hm : overlay image (d.bp.map (·.addr)) 0xcc x = image x := overlay_not_mem hx
    constructor
    · exact fun _ => hm
    · intro hcc
      rw [hm] at hcc
      exact absurd ⟨hcc, hx⟩ h

theorem unmaskFrom_unsaved (n : Nat) (h : ∃ i < n, Unsaved d image (a + BitVec.ofNat 64 i)) :
    unmaskFrom d a (window (overlay image (d.bp.map (·.addr)) 0xcc) a n) = none := by
  obtain ⟨i, hi, hcc, hoff⟩ := h
  by_contra some_
  have all := unmaskFrom_some.mp (Option.ne_none_iff_exists'.mp some_) i hi
  rw [overlay_not_mem hoff] at all
  exact hoff (all hcc)

end Unmask

section Shown
variable {σ : Type} {H : Host σ} {w : World σ} {image m : Memory 64} {a : Word} {word : String}
  {argv : List String}

theorem peekWords_window (n : Nat) (a : Word)
    (memory : ∀ i < n, H.peek w.dbg.pid (a + BitVec.ofNat 64 (8 * i)) w.os =
      load 8 m (a + BitVec.ofNat 64 (8 * i))) :
    peekWords H n a w = .ok (window m a (8 * n)) w := by
  induction n generalizing a with
  | zero => rfl
  | succ n ih =>
    have hfirst := memory 0 (by omega)
    have hrest : ∀ i < n, H.peek w.dbg.pid (a + 8 + BitVec.ofNat 64 (8 * i)) w.os =
        load 8 m (a + 8 + BitVec.ofNat 64 (8 * i)) := by
      intro i hi
      have hs := memory (i + 1) (by omega)
      rwa [Nat.mul_succ, Nat.add_comm, BitVec.ofNat_add, ← BitVec.add_assoc] at hs
    have hrun : peekWords H (n + 1) a w =
        .ok (codeBytes (H.peek w.dbg.pid a w.os) ++ window m (a + 8) (8 * n)) w := by
      simp only [peekWords, bind, EStateM.bind, dbg, ptracePeek, ask, ih (a + 8) hrest]
      rfl
    rw [Nat.mul_zero, BitVec.add_zero] at hfirst
    rw [hrun, hfirst, codeBytes_load, Nat.mul_succ, Nat.add_comm, window_add]
    rfl

/-- What `disasm` does with the bytes at its address. -/
theorem showRunning (a : Word)
    (memory : ∀ i < 20, H.peek w.dbg.pid (a + BitVec.ofNat 64 (8 * i)) w.os =
      load 8 m (a + BitVec.ofNat 64 (8 * i))) :
    (do let code ← peekWords H 20 a
        let code ← deref (unmaskFrom w.dbg a code)
        showCode H code a) w =
      match unmaskFrom w.dbg a (window m a 160) with
      | none => .error .crash w
      | some code => showCode H code a w := by
  simp only [bind, EStateM.bind, peekWords_window 20 a memory]
  cases unmaskFrom w.dbg a (window m a 160) <;> rfl

theorem disasm_running (running : w.dbg.stat = .running)
    (memory : ∀ i < 20, H.peek w.dbg.pid (a + BitVec.ofNat 64 (8 * i)) w.os =
      load 8 m (a + BitVec.ofNat 64 (8 * i)))
    (found : lookup H.list word = some .disasm) (given : argv ≠ [] ∨ w.dbg.ldisasm ≠ 0)
    (at_ : (argv.head?.map strtoll).getD w.dbg.ldisasm = a) :
    handle H (.line (word :: argv)) w =
      match unmaskFrom w.dbg a (window m a 160) with
      | none => .error .crash w
      | some code => showCode H code a w := by
  rw [handle, exec_found H 2 found, ← showRunning a memory, ← at_]
  cases argv with
  | nil =>
    have hl : w.dbg.ldisasm ≠ 0#64 := by simpa using given
    simp [Builtin.exec, cmdDisasm, bind, EStateM.bind, dbg, running, hl]
  | cons text rest =>
    have hlen : ¬rest.length + 1 + 1 < 2 := by omega
    simp [Builtin.exec, cmdDisasm, bind, EStateM.bind, dbg, running, hlen]

theorem disasm_crashes (running : w.dbg.stat = .running)
    (memory : ∀ x, H.peek w.dbg.pid x w.os =
      load 8 (overlay image (w.dbg.bp.map (·.addr)) 0xcc) x)
    (found : lookup H.list word = some .disasm) (given : argv ≠ [] ∨ w.dbg.ldisasm ≠ 0)
    (at_ : (argv.head?.map strtoll).getD w.dbg.ldisasm = a)
    (h : ∃ i < 160, Unsaved w.dbg image (a + BitVec.ofNat 64 i)) :
    handle H (.line (word :: argv)) w = .error .crash w := by
  rw [disasm_running running (fun _ _ => memory _) found given at_, unmaskFrom_unsaved 160 h]

/-- Showing code returns. -/
theorem showCode_returns (code : List Byte) (a : Word) (w : World σ) :
    ∃ w', showCode H code a w = .ok () w' := by
  have h : Wp (showCode H code a) (fun _ _ => True) (fun _ _ => False) w := by
    unfold showCode
    simp only [wp_bind]
    exact (prints_disasm H code a 10 w).mono (fun _ _ _ => trivial) (fun _ _ h => h.2.elim)
  obtain ⟨_, w', hran, _⟩ := h.returns fun _ _ h => h
  exact ⟨w', hran⟩

end Shown

/-- `disasm` of a running program decodes the original bytes of the 160 from its address on,
rather than crash, exactly when each of them that is `0xcc` has a breakpoint on it. -/
theorem disasm_original_iff {σ : Type} (H : Host σ) (w : World σ) (running : w.dbg.stat = .running)
    (image : Memory 64)
    (memory : ∀ x, H.peek w.dbg.pid x w.os =
      load 8 (overlay image (w.dbg.bp.map (·.addr)) 0xcc) x)
    (saved : ∀ b ∈ w.dbg.bp, byteOf b.code 0 = image b.addr) (word : String) (argv : List String)
    (found : lookup H.list word = some .disasm) (a : Word)
    (given : argv ≠ [] ∨ w.dbg.ldisasm ≠ 0)
    (at_ : (argv.head?.map strtoll).getD w.dbg.ldisasm = a) :
    handle H (.line (word :: argv)) w = showCode H (window image a 160) a w ↔
      ∀ i < 160, image (a + BitVec.ofNat 64 i) = 0xcc →
        a + BitVec.ofNat 64 i ∈ w.dbg.bp.map (·.addr) := by
  constructor
  · intro h i hi hcc
    by_contra hoff
    obtain ⟨w', hran⟩ := showCode_returns (H := H) (window image a 160) a w
    rw [hran, disasm_crashes running memory found given at_ ⟨i, hi, hcc, hoff⟩] at h
    cases h
  · intro h
    have hall : ∀ i < 160, ¬Unsaved w.dbg image (a + BitVec.ofNat 64 i) := by
      intro i hi hu
      exact hu.2 (h i hi hu.1)
    rw [disasm_running running (fun _ _ => memory _) found given at_,
      unmaskFrom_original 160 fun i hi => original_overlay saved (hall i hi)]

/-- In every undisturbed session on the machine, memory and the saved words are as `disasm`
needs them. -/
theorem live_memory {η : Type} {T : Isa η} {fuel : Nat} {B : Host (Machine η)} {m : Machine η}
    {w : World (Machine η)} {c : Child η} (childless : m.proc = none)
    (reached : Reached (handle (machineHost T fuel B)) (Undisturbed (machineHost T fuel B))
      (World.init m) w) (live : Live w c) :
    (∀ x, (machineHost T fuel B).peek w.dbg.pid x w.os =
      load 8 (overlay c.image (w.dbg.bp.map (·.addr)) 0xcc) x) ∧
      ∀ b ∈ w.dbg.bp, byteOf b.code 0 = c.image b.addr := by
  obtain ⟨mem, code⟩ := (reached_overlay childless reached).armed c live
  refine ⟨?_, code⟩
  intro x
  have hc := live.child
  simp only [machineHost, Machine.peek, hc, mem]

/-- A window with a breakpoint in it. -/
theorem disasm_original_demo : ∃ (w : World (Machine Demo.Hidden)) (image : Memory 64),
    (∃ b ∈ w.dbg.bp, b.addr = 0x401002) ∧ image 0x401002 = 0x90 ∧
      handle (Demo.host Demo.static) (.line ["disasm", "0x401000"]) w =
        showCode (Demo.host Demo.static) (window image 0x401000 160) 0x401000 w := by
  obtain ⟨w, hw, hs⟩ := exists_reached (handle (Demo.host Demo.static))
    (fun w i w' => checkUndisturbed (Demo.host Demo.static) w i w')
    (World.init (Demo.machine (Demo.program Demo.nops)))
    [.line ["load", "demo"], .line ["b", "0x401002"], .line ["start"]]
    (fun w => checkStopped w fun c => w.dbg.bp.any (fun b => b.addr = 0x401002) &&
      c.image 0x401002 = 0x90 &&
      (List.range 160).all fun i => c.image (0x401000 + BitVec.ofNat 64 i) ≠ 0xcc)
    (by decide +kernel)
  have undisturbed : Reached _ (Undisturbed _) _ w := hw.mono fun _ _ _ => undisturbed_of_check
  obtain ⟨running, c, live, hc⟩ := checked_stopped hs
  obtain ⟨hc, hplain⟩ := Bool.and_eq_true_iff.mp hc
  obtain ⟨hset, hnop⟩ := Bool.and_eq_true_iff.mp hc
  obtain ⟨b, hb, ha⟩ := List.any_eq_true.mp hset
  obtain ⟨memory, saved⟩ := live_memory rfl undisturbed live
  refine ⟨w, c.image, ⟨b, hb, of_decide_eq_true ha⟩, of_decide_eq_true hnop, ?_⟩
  have hat : strtoll "0x401000" = 0x401000 := by decide
  refine (disasm_original_iff (Demo.host Demo.static) w running c.image memory saved "disasm"
    ["0x401000"] (lookup_name _ .disasm) 0x401000 (.inl (by simp)) hat).mpr ?_
  intro i hi hcc
  have hne := List.all_eq_true.mp hplain i (List.mem_range.mpr hi)
  exact absurd hcc (of_decide_eq_true hne)

/-- `mov eax, 0xcc`: the immediate is taken for a breakpoint, and none is found there. -/
theorem disasm_immediate_crashes : ∃ (w : World (Machine Demo.Hidden)) (image : Memory 64),
    w.dbg.stat = .running ∧
      (∀ x, (Demo.host Demo.static).peek w.dbg.pid x w.os =
        load 8 (overlay image (w.dbg.bp.map (·.addr)) 0xcc) x) ∧
      (∀ b ∈ w.dbg.bp, byteOf b.code 0 = image b.addr) ∧
      handle (Demo.host Demo.static) (.line ["disasm", "0x401000"]) w = .error .crash w := by
  obtain ⟨w, hw, hs⟩ := exists_reached (handle (Demo.host Demo.static))
    (fun w i w' => checkUndisturbed (Demo.host Demo.static) w i w')
    (World.init (Demo.machine (Demo.program [0xb8, 0xcc, 0, 0, 0, 0x90])))
    [.line ["load", "demo"], .line ["start"]]
    (fun w => checkStopped w fun c => w.dbg.bp.isEmpty && c.image (0x401000 + 1) = 0xcc)
    (by decide +kernel)
  have undisturbed : Reached _ (Undisturbed _) _ w := hw.mono fun _ _ _ => undisturbed_of_check
  obtain ⟨running, c, live, hc⟩ := checked_stopped hs
  obtain ⟨hempty, hcc⟩ := Bool.and_eq_true_iff.mp hc
  obtain ⟨memory, saved⟩ := live_memory rfl undisturbed live
  refine ⟨w, c.image, running, memory, saved, ?_⟩
  have hoff : (0x401000 + 1 : Word) ∉ w.dbg.bp.map (·.addr) := by
    simp [List.isEmpty_iff.mp hempty]
  have hat : strtoll "0x401000" = 0x401000 := by decide
  have found : lookup (Demo.host Demo.static).list "disasm" = some .disasm := lookup_name _ .disasm
  exact disasm_crashes running memory found (.inl (by simp)) hat
    ⟨1, by omega, of_decide_eq_true hcc, hoff⟩

end UnixProgramming.Sdb.Proofs
