import UnixProgramming.Sdb.Proofs.Disasm

namespace UnixProgramming.Sdb.Proofs
open Lib

/-- The row of the sixteen bytes from `a` on. -/
def rowAt (m : Memory 64) (a : Word) : Out := .row a (window m a 16) ((window m a 16).map printable)

def rowsFrom (m : Memory 64) : Nat → Word → List Out
  | 0, _ => []
  | k + 1, a => rowAt m a :: rowsFrom m k (a + 16)

/-- The bytes of a line of output. -/
def Out.bytes : Out → List Byte
  | .row _ bytes _ => bytes
  | _ => []

/-- The words of the program that lie in the `len` bytes from `a` on are those of `m`. -/
def Peeks (H : Host σ) (w : World σ) (m : Memory 64) (a : Word) (len : Nat) : Prop :=
  ∀ i, i + 8 ≤ len → H.peek w.dbg.pid (a + BitVec.ofNat 64 i) w.os =
    load 8 m (a + BitVec.ofNat 64 i)

/-- After `dump` has shown five rows from `a` on. -/
def dumped (w : World σ) (m : Memory 64) (a : Word) : World σ :=
  { w with
    dbg := { w.dbg with ldump := a + 80 }
    out := (rowsFrom m 5 a).reverse ++ w.out }

section Rows
variable {m : Memory 64} {a : Word}

theorem length_rowsFrom (k : Nat) : (rowsFrom m k a).length = k := by
  induction k generalizing a with
  | zero => rfl
  | succ k ih => rw [rowsFrom, List.length_cons, ih]

theorem rowsFrom_add (k n : Nat) :
    rowsFrom m (k + n) a = rowsFrom m k a ++ rowsFrom m n (a + BitVec.ofNat 64 (16 * k)) := by
  induction k generalizing a with
  | zero => simp [rowsFrom]
  | succ k ih =>
    have hat : a + 16 + BitVec.ofNat 64 (16 * k) = a + BitVec.ofNat 64 (16 * (k + 1)) := by
      rw [Nat.mul_succ, Nat.add_comm, BitVec.ofNat_add, ← BitVec.add_assoc]
      rfl
    rw [Nat.add_right_comm, rowsFrom, rowsFrom, ih, hat, List.cons_append]

/-- Row by row, the bytes are those of one stretch of memory. -/
theorem bytes_rowsFrom (k : Nat) : (rowsFrom m k a).flatMap Out.bytes = window m a (16 * k) := by
  induction k generalizing a with
  | zero => rfl
  | succ k ih =>
    rw [rowsFrom, List.flatMap_cons, ih, Nat.mul_succ, Nat.add_comm, window_add]
    rfl

theorem rowsFrom_at {k i : Nat} {r : Out} (h : (rowsFrom m k a)[i]? = some r) :
    i < k ∧ r = rowAt m (a + BitVec.ofNat 64 (16 * i)) := by
  have hi : i < k := by
    have hlt := (List.getElem?_eq_some_iff.mp h).1
    rwa [length_rowsFrom] at hlt
  refine ⟨hi, ?_⟩
  obtain ⟨n, rfl⟩ : ∃ n, k = i + (n + 1) := ⟨k - i - 1, by omega⟩
  rw [rowsFrom_add, List.getElem?_append_right (by rw [length_rowsFrom]), length_rowsFrom,
    Nat.sub_self] at h
  exact (Option.some.inj h).symm

/-- Printable characters stand for themselves and any other byte is a dot. -/
theorem printable_shows (bytes : List Byte) : List.Forall₂
    (fun c t => if 0x20 ≤ c.toNat ∧ c.toNat ≤ 0x7e then t = c else t = 0x2e) bytes
    (bytes.map printable) := by
  rw [List.forall₂_map_right_iff, List.forall₂_same]
  intro c _
  by_cases shown : 0x20 ≤ c.toNat ∧ c.toNat ≤ 0x7e
  · rw [if_pos shown]
    exact if_pos shown
  · rw [if_neg shown]
    exact if_neg shown

end Rows

section Commands
variable {σ : Type} {H : Host σ} {w : World σ} {m : Memory 64} {a : Word} {word : String}
  {argv : List String}

theorem Peeks.part {j k len : Nat} (h : Peeks H w m a len) (fits : j + k ≤ len) :
    Peeks H w m (a + BitVec.ofNat 64 j) k := by
  intro i hi
  rw [BitVec.add_assoc, ← BitVec.ofNat_add]
  exact h (j + i) (by omega)

theorem dumpRows_ok (k : Nat) (peeks : Peeks H w m a (16 * k)) :
    dumpRows H k a w = .ok () { w with out := (rowsFrom m k a).reverse ++ w.out } := by
  induction k generalizing w a with
  | zero => rfl
  | succ k ih =>
    have hlo := peeks 0 (by omega)
    have hhi := peeks 8 (by omega)
    have hrest : Peeks H { w with out := rowAt m a :: w.out } m (a + 16) (16 * k) :=
      peeks.part (j := 16) (by omega)
    have hrow : codeBytes (load 8 m a) ++ codeBytes (load 8 m (a + 8)) = window m a 16 := by
      rw [codeBytes_load, codeBytes_load]
      exact (window_add m a 8 8).symm
    rw [BitVec.add_zero] at hlo
    replace hhi : H.peek w.dbg.pid (a + 8) w.os = load 8 m (a + 8) := hhi
    have hrun : dumpRows H (k + 1) a w =
        dumpRows H k (a + 16) { w with out := rowAt m a :: w.out } := by
      simp only [dumpRows, bind, EStateM.bind, dbg, ptracePeek, ask, print, hlo, hhi, hrow]
      rfl
    rw [hrun, ih hrest]
    simp [rowsFrom]

/-- One command shows the next eighty bytes. -/
theorem dump_step (found : lookup H.list word = some .dump) (running : w.dbg.stat = .running)
    (peeks : Peeks H w m a 80) (given : argv ≠ [] ∨ w.dbg.ldump ≠ 0)
    (at_ : (argv.head?.map strtoll).getD w.dbg.ldump = a) :
    handle H (.line (word :: argv)) w = .ok () (dumped w m a) := by
  have hrows := dumpRows_ok 5 peeks
  rw [handle, exec_found H 2 found]
  cases argv with
  | nil =>
    have hl : w.dbg.ldump ≠ 0#64 := by simpa using given
    have ha : w.dbg.ldump = a := at_
    rw [← ha] at hrows ⊢
    simp [Builtin.exec, cmdDump, bind, EStateM.bind, dbg, running, hl, hrows, setDbg, dumped]
  | cons text rest =>
    have hlen : ¬rest.length + 1 + 1 < 2 := by omega
    have ha : strtoll text = a := at_
    simp [Builtin.exec, cmdDump, bind, EStateM.bind, dbg, running, hlen, ha, hrows, setDbg, dumped]

theorem dump_run (found : lookup H.list word = some .dump) (n : Nat) (argv : List String)
    (running : w.dbg.stat = .running) (given : argv ≠ [] ∨ w.dbg.ldump ≠ 0)
    (at_ : (argv.head?.map strtoll).getD w.dbg.ldump = a) (positive : 0 < a)
    (below : a.toNat + 80 * (n + 1) ≤ 2 ^ 63) (peeks : Peeks H w m a (80 * (n + 1))) :
    ∃ w', runAll (handle H) (fun _ _ _ => true)
        (.line (word :: argv) :: List.replicate n (.line [word])) w = some w' ∧
      w'.out = (rowsFrom m (5 * (n + 1)) a).reverse ++ w.out := by
  induction n generalizing w argv a with
  | zero =>
    have step := dump_step found running peeks given at_
    refine ⟨dumped w m a, ?_, rfl⟩
    rw [List.replicate_zero, runAll, step]
    rfl
  | succ n ih =>
    have first : Peeks H w m a 80 := by
      have h := peeks.part (j := 0) (k := 80) (by omega)
      rwa [BitVec.add_zero] at h
    have step := dump_step found running first given at_
    -- the cursor the next command starts from is not zero
    have next : (a + 80).toNat = a.toNat + 80 := by
      rw [BitVec.toNat_add]
      have : (80 : Word).toNat = 80 := rfl
      omega
    have above : 0 < a + 80 := by
      rw [BitVec.lt_def, next]
      exact Nat.succ_pos _
    have rest : Peeks H (dumped w m a) m (a + 80) (80 * (n + 1)) :=
      peeks.part (j := 80) (by omega)
    obtain ⟨w', ran, out⟩ := ih (w := dumped w m a) (a := a + 80) [] running
      (.inr (BitVec.ne_of_lt above).symm) rfl above (by omega) rest
    refine ⟨w', ?_, ?_⟩
    · rw [List.replicate_succ, runAll, step]
      exact ran
    · have split : rowsFrom m (5 * (n + 1 + 1)) a =
          rowsFrom m 5 a ++ rowsFrom m (5 * (n + 1)) (a + 80) := by
        rw [Nat.mul_succ, Nat.add_comm, rowsFrom_add]
        rfl
      rw [out, split, List.reverse_append, List.append_assoc]
      rfl

end Commands

/-- `dump` at an address and then without one, again and again: every byte from there on, once and
in order, in rows that say where they begin and show their bytes as text. -/
theorem dump_shows {σ : Type} (H : Host σ) (w : World σ) (running : w.dbg.stat = .running)
    (m : Memory 64) (word text : String) (found : lookup H.list word = some .dump) (a : Word)
    (at_ : strtoll text = a) (positive : 0 < a) (n : Nat) (below : a.toNat + 80 * (n + 1) ≤ 2 ^ 63)
    (peeks : Peeks H w m a (80 * (n + 1))) :
    ∃ (w' : World σ) (rows : List Out), runAll (handle H) (fun _ _ _ => true)
        (.line [word, text] :: List.replicate n (.line [word])) w = some w' ∧
      w'.out = rows.reverse ++ w.out ∧
      rows.flatMap Out.bytes = window m a (80 * (n + 1)) ∧
      ∀ i r, rows[i]? = some r → ∃ label column, label.toNat = a.toNat + 16 * i ∧
        r = .row label (window m label 16) column ∧
        List.Forall₂ (fun c t => if 0x20 ≤ c.toNat ∧ c.toNat ≤ 0x7e then t = c else t = 0x2e)
          (window m label 16) column := by
  obtain ⟨w', ran, out⟩ := dump_run found n [text] running (.inl (by simp)) at_ positive below
    peeks
  refine ⟨w', _, ran, out, ?_, ?_⟩
  · rw [bytes_rowsFrom, ← Nat.mul_assoc]
  · intro i r h
    obtain ⟨hi, hr⟩ := rowsFrom_at h
    refine ⟨_, _, ?_, hr, printable_shows _⟩
    rw [BitVec.toNat_add, BitVec.toNat_ofNat]
    omega

/-- Two commands on a running program of `nop`s: no byte of the first row can be printed. -/
theorem dump_shows_demo : ∃ (w w' : World (Machine Demo.Hidden)) (rows : List Out),
    runAll (handle (Demo.host Demo.static)) (fun _ _ _ => true)
      [.line ["dump", "0x401000"], .line ["dump"]] w = some w' ∧
    w'.out = rows.reverse ++ w.out ∧ (rows.flatMap Out.bytes).length = 160 ∧
    ∀ r, rows[0]? = some r → r = .row 0x401000 Demo.nops (List.replicate 16 0x2e) := by
  obtain ⟨w, hw, hs⟩ := exists_reached (handle (Demo.host Demo.static))
    (fun w i w' => checkUndisturbed (Demo.host Demo.static) w i w')
    (World.init (Demo.machine (Demo.program Demo.nops)))
    [.line ["load", "demo"], .line ["start"]]
    (fun w => checkStopped w fun c => w.dbg.bp.isEmpty && window c.image 0x401000 16 = Demo.nops)
    (by decide +kernel)
  have undisturbed : Reached _ (Undisturbed _) _ w := hw.mono fun _ _ _ => undisturbed_of_check
  obtain ⟨running, c, live, hc⟩ := checked_stopped hs
  obtain ⟨hempty, hnops⟩ := Bool.and_eq_true_iff.mp hc
  have hnops : window c.image 0x401000 16 = Demo.nops := of_decide_eq_true hnops
  obtain ⟨memory, -⟩ := live_memory rfl undisturbed live
  rw [List.isEmpty_iff.mp hempty, List.map_nil, overlay_nil] at memory
  have hat : strtoll "0x401000" = 0x401000 := by decide
  obtain ⟨w', rows, ran, out, bytes, labels⟩ := dump_shows (Demo.host Demo.static) w running c.image
    "dump" "0x401000" (lookup_name _ .dump) 0x401000 hat (by decide) 1 (by decide)
    (fun i _ => memory _)
  refine ⟨w, w', rows, ran, out, by rw [bytes, length_window], ?_⟩
  intro r first
  obtain ⟨label, column, start, rfl, shown⟩ := labels 0 r first
  obtain rfl : label = 0x401000 := BitVec.eq_of_toNat_eq start
  rw [hnops] at shown ⊢
  have dots : column = List.replicate 16 0x2e := by
    simpa [Demo.nops, List.replicate, List.forall₂_cons_left_iff] using shown
  rw [dots]

end UnixProgramming.Sdb.Proofs
