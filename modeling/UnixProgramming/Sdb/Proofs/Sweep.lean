import UnixProgramming.Lib.Decode
import UnixProgramming.Sdb.Proofs.Disasm

namespace UnixProgramming.Sdb.Proofs
open Lib

/-- `cs_disasm` as a decoder: an instruction of x86-64 has at most fifteen bytes. -/
abbrev InsnDecoder := Decoder 64 Insn.bytes 15

/-- The program's memory is `m` where it is mapped. A word that is not mapped as a whole cannot be
read, which `ptrace` reports as -1. -/
structure PeekedFrom (H : Host σ) (w : World σ) (m : Memory 64) (mapped : Word → Prop) : Prop where
  whole : ∀ x, (∀ j < 8, mapped (x + BitVec.ofNat 64 j)) → H.peek w.dbg.pid x w.os = load 8 m x
  torn : ∀ x, ¬(∀ j < 8, mapped (x + BitVec.ofNat 64 j)) → H.peek w.dbg.pid x w.os = -1

/-- The word in which a command at `a` reads the byte `i` behind it is mapped as a whole. -/
def WordMapped (mapped : Word → Prop) (a : Word) (i : Nat) : Prop :=
  ∀ j < 8, mapped (a + BitVec.ofNat 64 (8 * (i / 8)) + BitVec.ofNat 64 j)

/-- Memory as a command at `a` sees it, word by word from there on. -/
def seen (H : Host σ) (w : World σ) (a : Word) : Memory 64 := fun x =>
  byteOf (H.peek w.dbg.pid (a + BitVec.ofNat 64 (8 * (offset a x / 8))) w.os) (offset a x % 8)

/-- What the 160 bytes that a command at `a` reads must be like for it to show the instructions of
`image` there. Every `0xcc` among them has a breakpoint on it; a word that holds a byte of these
instructions is mapped as a whole, unless the byte is the `0xff` of a failed read; and if there are
fewer than ten, no instruction is read behind them. -/
structure Legible (H : Host σ) (D : InsnDecoder) (w : World σ) (m : Memory 64)
    (mapped : Word → Prop) (image : Memory 64) (a : Word) : Prop where
  own : ∀ i < 160, WordMapped mapped a i → m (a + BitVec.ofNat 64 i) = 0xcc →
    a + BitVec.ofNat 64 i ∈ w.dbg.bp.map (·.addr)
  torn : ∀ i < Decoder.size Insn.bytes (D.linear image 10 a), ¬WordMapped mapped a i →
    image (a + BitVec.ofNat 64 i) = 0xff
  ends : (D.linear image 10 a).length < 10 →
    D.one (a + BitVec.ofNat 64 (Decoder.size Insn.bytes (D.linear image 10 a)))
      (window (Debugger.unmasked w.dbg (seen H w a))
        (a + BitVec.ofNat 64 (Decoder.size Insn.bytes (D.linear image 10 a))) 15) = none

/-- What `disasm` prints for the instructions it found, the latest line first. -/
def listing (is : List Insn) : List Out :=
  if is.isEmpty then [.msg "disasm failed." []] else (is.map .insn).reverse

/-- After `disasm` has shown the instructions `is` from `a` on. -/
def shown (w : World σ) (is : List Insn) (a : Word) : World σ :=
  { w with
    dbg := { w.dbg with ldisasm := a + BitVec.ofNat 64 (Decoder.size Insn.bytes is) }
    out := listing is ++ w.out }

/-- The instruction of a line of output. -/
def Out.insn? : Out → Option Insn
  | .insn i => some i
  | _ => none

/-- The instructions printed so far, the first one first. -/
def insns (w : World σ) : List Insn := w.out.reverse.filterMap Out.insn?

/-- The command and `n` more without an address show the first instructions of `image` from `a`
on, ten for each command, or all there are. -/
def Sweeps (H : Host σ) (D : InsnDecoder) (image : Memory 64) (word : String) (argv : List String)
    (n : Nat) (w : World σ) (a : Word) : Prop :=
  ∃ w', runAll (handle H) (fun _ _ _ => true)
      (.line (word :: argv) :: List.replicate n (.line [word])) w = some w' ∧
    insns w' = insns w ++ D.linear image (10 * (n + 1)) a

theorem insns_listing (is : List Insn) : (listing is).reverse.filterMap Out.insn? = is := by
  cases is with
  | nil => rfl
  | cons i rest =>
    simp only [listing, List.isEmpty_cons, Bool.false_eq_true, if_false, List.reverse_reverse,
      List.filterMap_map]
    exact List.filterMap_some

theorem insns_shown (w : World σ) (is : List Insn) (a : Word) :
    insns (shown w is a) = insns w ++ is := by
  rw [insns, shown, List.reverse_append, List.filterMap_append, insns_listing]
  rfl

section Seen
variable {σ : Type} {H : Host σ} {w : World σ} {m : Memory 64} {mapped : Word → Prop} {a : Word}
  {i : Nat}

theorem seen_at (hi : i < 2 ^ 64) : seen H w a (a + BitVec.ofNat 64 i) =
    byteOf (H.peek w.dbg.pid (a + BitVec.ofNat 64 (8 * (i / 8))) w.os) (i % 8) := by
  rw [seen, offset_add a hi]

/-- Every word a command reads is one of what it sees. -/
theorem peek_seen (hi : i < 20) : H.peek w.dbg.pid (a + BitVec.ofNat 64 (8 * i)) w.os =
    load 8 (seen H w a) (a + BitVec.ofNat 64 (8 * i)) := by
  refine (load_eq_iff (n := 8)).mpr fun j hj => ?_
  rw [BitVec.add_assoc, ← BitVec.ofNat_add, seen_at (by omega),
    show (8 * i + j) / 8 = i by omega, show (8 * i + j) % 8 = j by omega]

theorem PeekedFrom.seen_whole (h : PeekedFrom H w m mapped) (hi : i < 160)
    (whole : WordMapped mapped a i) :
    seen H w a (a + BitVec.ofNat 64 i) = m (a + BitVec.ofNat 64 i) := by
  rw [seen_at (by omega), h.whole _ whole, byteOf_load _ _ (Nat.mod_lt i (by omega)),
    BitVec.add_assoc, ← BitVec.ofNat_add, Nat.div_add_mod]

theorem PeekedFrom.seen_torn (h : PeekedFrom H w m mapped) (hi : i < 160)
    (torn : ¬WordMapped mapped a i) :
    seen H w a (a + BitVec.ofNat 64 i) = 0xff := by
  have ones : ∀ j < 8, byteOf (-1 : Word) j = 0xff := by decide
  rw [seen_at (by omega), h.torn _ torn, ones _ (Nat.mod_lt i (by omega))]

end Seen

section Commands
variable {σ : Type} {H : Host σ} {w : World σ} {image m : Memory 64} {mapped : Word → Prop}
  {a : Word} {D : InsnDecoder} {word : String} {argv : List String} {n : Nat}

/-- Showing instructions leaves the program and its breakpoints as they were. -/
theorem PeekedFrom.shown {is : List Insn} {b : Word} (h : PeekedFrom H w m mapped) :
    PeekedFrom H (shown w is b) m mapped := ⟨h.whole, h.torn⟩

theorem legible_shown {is : List Insn} {b c : Word} :
    Legible H D (shown w is b) m mapped image c ↔ Legible H D w m mapped image c :=
  ⟨fun h => ⟨h.own, h.torn, h.ends⟩, fun h => ⟨h.own, h.torn, h.ends⟩⟩

theorem printInsns_ok (is : List Insn) (w : World σ) :
    printInsns is w = .ok () { w with out := (is.map .insn).reverse ++ w.out } := by
  induction is generalizing w with
  | nil => rfl
  | cons i rest ih =>
    simp only [printInsns, bind, EStateM.bind, print, ih]
    simp

theorem showCode_ok (opens : H.csOpen w.os = true) (code : List Byte) (a : Word) :
    showCode H code a w = .ok () (shown w ((H.csDisasm code a).take 10) a) := by
  cases hc : H.csDisasm code a with
  | nil =>
    simp [showCode, disasm, Proofs.shown, listing, hc, opens, bind, EStateM.bind, ask, errmsg,
      print, setDbg, pure, EStateM.pure]
  | cons i rest =>
    simp [showCode, disasm, Proofs.shown, listing, hc, opens, bind, EStateM.bind, ask, setDbg, pure,
      EStateM.pure, printInsns_ok, Decoder.size]

/-- One command shows what it sees, or crashes. -/
theorem sweep_step (works : ∀ bs x, H.csDisasm bs x = D.decode bs x)
    (opens : H.csOpen w.os = true) (found : lookup H.list word = some .disasm)
    (running : w.dbg.stat = .running) (given : argv ≠ [] ∨ w.dbg.ldisasm ≠ 0)
    (at_ : (argv.head?.map strtoll).getD w.dbg.ldisasm = a) :
    handle H (.line (word :: argv)) w = match unmaskFrom w.dbg a (window (seen H w a) a 160) with
      | none => .error .crash w
      | some code => .ok () (shown w ((D.decode code a).take 10) a) := by
  rw [disasm_running running (fun i hi => peek_seen hi) found given at_]
  cases unmaskFrom w.dbg a (window (seen H w a) a 160) with
  | none => rfl
  | some code => exact (showCode_ok opens code a).trans (by rw [works])

theorem sweeps_zero (works : ∀ bs x, H.csDisasm bs x = D.decode bs x)
    (opens : H.csOpen w.os = true) (found : lookup H.list word = some .disasm)
    (running : w.dbg.stat = .running) (given : argv ≠ [] ∨ w.dbg.ldisasm ≠ 0)
    (at_ : (argv.head?.map strtoll).getD w.dbg.ldisasm = a) :
    Sweeps H D image word argv 0 w a ↔
      ∃ code, unmaskFrom w.dbg a (window (seen H w a) a 160) = some code ∧
        (D.decode code a).take 10 = D.linear image 10 a := by
  have step := sweep_step works opens found running given at_
  unfold Sweeps
  rw [List.replicate_zero, runAll, step]
  cases unmaskFrom w.dbg a (window (seen H w a) a 160) with
  | none => simp
  | some code => simp [runAll, insns_shown]

/-- A command that shows its ten instructions leaves the rest to the next one. -/
theorem sweeps_succ (step : handle H (.line (word :: argv)) w =
      .ok () (shown w (D.linear image 10 a) a)) (n : Nat) :
    Sweeps H D image word argv (n + 1) w a ↔ Sweeps H D image word [] n
      (shown w (D.linear image 10 a) a)
      (a + BitVec.ofNat 64 (Decoder.size Insn.bytes (D.linear image 10 a))) := by
  unfold Sweeps
  rw [List.replicate_succ, runAll, step, insns_shown, Nat.mul_succ, Nat.add_comm,
    Decoder.linear_add, List.append_assoc]
  rfl

/-- What one command sees decodes to the instructions of `image` exactly when it is legible. -/
theorem legible_iff (peeked : PeekedFrom H w m mapped)
    (swept : ∀ i < Decoder.size Insn.bytes (D.linear image 10 a), mapped (a + BitVec.ofNat 64 i) ∧
      Original w.dbg.bp image m (a + BitVec.ofNat 64 i)) :
    (∃ code, unmaskFrom w.dbg a (window (seen H w a) a 160) = some code ∧
        (D.decode code a).take 10 = D.linear image 10 a) ↔
      Legible H D w m mapped image a := by
  have room : Decoder.size Insn.bytes (D.linear image 10 a) ≤ 15 * (D.linear image 10 a).length :=
    Decoder.size_linear_le
  have ten : (D.linear image 10 a).length ≤ 10 := Decoder.length_linear_le
  -- a torn word shows no 0xcc at all
  have own : (∀ i < 160, seen H w a (a + BitVec.ofNat 64 i) = 0xcc →
        a + BitVec.ofNat 64 i ∈ w.dbg.bp.map (·.addr)) ↔
      ∀ i < 160, WordMapped mapped a i → m (a + BitVec.ofNat 64 i) = 0xcc →
        a + BitVec.ofNat 64 i ∈ w.dbg.bp.map (·.addr) := by
    refine forall_congr' fun i => forall_congr' fun hi => ?_
    by_cases whole : WordMapped mapped a i
    · rw [peeked.seen_whole hi whole]
      exact ⟨fun h _ => h, fun h => h whole⟩
    · rw [peeked.seen_torn hi whole]
      exact ⟨fun _ hw => absurd hw whole, fun _ h => by cases h⟩
  -- what is shown of the swept bytes is the image, as far as it can be read
  have torn : window image a (Decoder.size Insn.bytes (D.linear image 10 a)) <+:
        window (Debugger.unmasked w.dbg (seen H w a)) a 160 ↔
      ∀ i < Decoder.size Insn.bytes (D.linear image 10 a), ¬WordMapped mapped a i →
        image (a + BitVec.ofNat 64 i) = 0xff := by
    rw [window_prefix_iff]
    refine forall_congr' fun i => forall_congr' fun hi => ?_
    have within : i < 160 := by omega
    by_cases whole : WordMapped mapped a i
    · have told : Original w.dbg.bp image (seen H w a) (a + BitVec.ofNat 64 i) := by
        have same := peeked.seen_whole within whole
        exact ⟨same ▸ (swept i hi).2.plain, same ▸ (swept i hi).2.masked⟩
      simp [window, within, unmasked_original told, whole]
    · have ones : Debugger.unmasked w.dbg (seen H w a) (a + BitVec.ofNat 64 i) = 0xff := by
        rw [Debugger.unmasked, peeked.seen_torn within whole]
        rfl
      simp [window, within, ones, whole, eq_comm]
  have ends : (D.linear image 10 a).length < 10 → (D.one
        (a + BitVec.ofNat 64 (Decoder.size Insn.bytes (D.linear image 10 a)))
        ((window (Debugger.unmasked w.dbg (seen H w a)) a 160).drop
          (Decoder.size Insn.bytes (D.linear image 10 a))) = none ↔
      D.one (a + BitVec.ofNat 64 (Decoder.size Insn.bytes (D.linear image 10 a)))
        (window (Debugger.unmasked w.dbg (seen H w a))
          (a + BitVec.ofNat 64 (Decoder.size Insn.bytes (D.linear image 10 a))) 15) = none) := by
    intro few
    rw [drop_window _ _ (show Decoder.size Insn.bytes (D.linear image 10 a) ≤ 160 by omega),
      Decoder.one_window (by omega)]
  constructor
  · rintro ⟨code, hcode, hten⟩
    have clear := unmaskFrom_some.mp ⟨code, hcode⟩
    rw [unmaskFrom_own clear] at hcode
    cases hcode
    obtain ⟨begins, stops⟩ := Decoder.take_decode_iff.mp hten
    exact ⟨own.mp clear, torn.mp begins, fun few => (ends few).mp (stops few)⟩
  · intro legible
    exact ⟨_, unmaskFrom_own (own.mpr legible.own), Decoder.take_decode_iff.mpr
      ⟨torn.mpr legible.torn, fun few => (ends few).mpr (legible.ends few)⟩⟩

end Commands

theorem forall_le_succ {p : Nat → Prop} {n : Nat} :
    (∀ k ≤ n + 1, p k) ↔ p 0 ∧ ∀ k ≤ n, p (k + 1) := by
  simpa only [Nat.lt_succ_iff] using Nat.forall_lt_succ_left (n := n + 1) (p := p)

/-- `disasm` at an address and then without one is a linear sweep over the program, however often,
exactly when what each of the commands reads is legible. -/
theorem disasm_sweeps_iff {σ : Type} (H : Host σ) (D : InsnDecoder)
    (works : ∀ bs x, H.csDisasm bs x = D.decode bs x) (image m : Memory 64) (mapped : Word → Prop)
    (word : String) (found : lookup H.list word = some .disasm) (n : Nat) (w : World σ)
    (opens : H.csOpen w.os = true) (running : w.dbg.stat = .running)
    (peeked : PeekedFrom H w m mapped) (argv : List String) (a : Word)
    (given : argv ≠ [] ∨ w.dbg.ldisasm ≠ 0)
    (at_ : (argv.head?.map strtoll).getD w.dbg.ldisasm = a) (positive : 0 < a)
    (below : a.toNat + Decoder.size Insn.bytes (D.linear image (10 * n) a) < 2 ^ 63)
    (swept : ∀ i < Decoder.size Insn.bytes (D.linear image (10 * (n + 1)) a),
      mapped (a + BitVec.ofNat 64 i) ∧ Original w.dbg.bp image m (a + BitVec.ofNat 64 i)) :
    (∀ k ≤ n, Sweeps H D image word argv k w a) ↔
      ∀ k ≤ n, Legible H D w m mapped image
        (a + BitVec.ofNat 64 (Decoder.size Insn.bytes (D.linear image (10 * k) a))) := by
  induction n generalizing w argv a with
  | zero =>
    have first : Sweeps H D image word argv 0 w a ↔ Legible H D w m mapped image a :=
      (sweeps_zero works opens found running given at_).trans (legible_iff peeked swept)
    simpa [Decoder.linear] using first
  | succ n ih =>
    -- the next command starts where the ten instructions of this one end
    obtain ⟨b, hb⟩ : ∃ b, a + BitVec.ofNat 64 (Decoder.size Insn.bytes (D.linear image 10 a)) = b :=
      ⟨_, rfl⟩
    have split : ∀ k, D.linear image (10 * (k + 1)) a =
        D.linear image 10 a ++ D.linear image (10 * k) b := by
      intro k
      rw [← hb, ← Decoder.linear_add, Nat.mul_succ, Nat.add_comm]
    rw [split, Decoder.size_append] at below
    rw [split, Decoder.size_append] at swept
    have first : Sweeps H D image word argv 0 w a ↔ Legible H D w m mapped image a :=
      (sweeps_zero works opens found running given at_).trans
        (legible_iff peeked fun i hi => swept i (by omega))
    have later : (∀ k ≤ n, Legible H D w m mapped image
          (a + BitVec.ofNat 64 (Decoder.size Insn.bytes (D.linear image (10 * (k + 1)) a)))) ↔
        ∀ k ≤ n, Legible H D w m mapped image
          (b + BitVec.ofNat 64 (Decoder.size Insn.bytes (D.linear image (10 * k) b))) := by
      refine forall_congr' fun k => imp_congr_right fun _ => ?_
      rw [split, Decoder.size_append, BitVec.ofNat_add, ← BitVec.add_assoc, hb]
    rw [forall_le_succ, forall_le_succ, later]
    have zero : Legible H D w m mapped image
        (a + BitVec.ofNat 64 (Decoder.size Insn.bytes (D.linear image (10 * 0) a))) ↔
        Legible H D w m mapped image a := by simp [Decoder.linear]
    rw [first, zero]
    refine and_congr_right fun legible => ?_
    have step : handle H (.line (word :: argv)) w =
        .ok () (shown w (D.linear image 10 a) a) := by
      obtain ⟨code, hcode, hten⟩ := (legible_iff peeked fun i hi => swept i (by omega)).mpr legible
      rw [sweep_step works opens found running given at_, hcode, ← hten]
    have htoNat : b.toNat =
        a.toNat + Decoder.size Insn.bytes (D.linear image 10 a) := by
      rw [← hb, BitVec.toNat_add, BitVec.toNat_ofNat, Nat.add_mod_mod, Nat.mod_eq_of_lt (by omega)]
    have hpos : 0 < b := by
      rw [BitVec.lt_def] at positive ⊢
      simp only [BitVec.ofNat_eq_ofNat, BitVec.toNat_ofNat, Nat.zero_mod] at positive ⊢
      omega
    have hne : b ≠ 0 := by
      rintro rfl
      exact absurd hpos (by decide)
    have onward : ∀ i < Decoder.size Insn.bytes (D.linear image (10 * (n + 1)) b),
        mapped (b + BitVec.ofNat 64 i) ∧ Original w.dbg.bp image m (b + BitVec.ofNat 64 i) := by
      intro i hi
      rw [← hb, BitVec.add_assoc, ← BitVec.ofNat_add]
      exact swept _ (by omega)
    have rest := ih (shown w (D.linear image 10 a) a) opens running peeked.shown [] b
      (.inr fun h => hne (hb ▸ h)) hb hpos (by omega) onward
    simp only [legible_shown] at rest
    rw [← rest]
    refine forall_congr' fun k => imp_congr_right fun _ => ?_
    rw [sweeps_succ step, hb]

/-- The instructions of a program of `nop`s and of the zeros behind it. -/
def nopsOne (a : Word) (bs : List Byte) : Option Insn :=
  if [0x90] <+: bs then some ⟨a, [0x90], "nop"⟩
  else if [0, 0] <+: bs then some ⟨a, [0, 0], "add      byte ptr [rax], al"⟩
  else none

theorem nopsOne_some {a : Word} {bs : List Byte} {i : Insn} (h : nopsOne a bs = some i) :
    ([0x90] <+: bs ∧ i = ⟨a, [0x90], "nop"⟩) ∨
      ([0, 0] <+: bs ∧ i = ⟨a, [0, 0], "add      byte ptr [rax], al"⟩) := by
  unfold nopsOne at h
  split at h
  · rename_i hp
    exact .inl ⟨hp, (Option.some.inj h).symm⟩
  · split at h
    · rename_i hp
      exact .inr ⟨hp, (Option.some.inj h).symm⟩
    · cases h

def nops : InsnDecoder where
  one := nopsOne
  begins h := by
    obtain ⟨hp, rfl⟩ | ⟨hp, rfl⟩ := nopsOne_some h
    · exact hp
    · exact hp
  sized h := by
    obtain ⟨_, rfl⟩ | ⟨_, rfl⟩ := nopsOne_some h
    · simp
    · simp
  own {a bs bs' i} h again := by
    obtain ⟨_, rfl⟩ | ⟨_, rfl⟩ := nopsOne_some h
    · exact if_pos again
    · obtain ⟨rest, rfl⟩ := again
      have hne : ¬[0x90] <+: ([0, 0] ++ rest : List Byte) := by simp
      rw [nopsOne, if_neg hne, if_pos (List.prefix_append _ _)]

def nopsHost : Host (Machine Demo.Hidden) :=
  machineHost Demo.isa 64 { Demo.services Demo.static with csDisasm := nops.decode }

/-- On the machine all memory is mapped, so ten instructions are legible when no `0xcc` is near. -/
theorem legible_plain {H : Host σ} {D : InsnDecoder} {w : World σ} {image : Memory 64} {a : Word}
    (plain : ∀ i < 160, image (a + BitVec.ofNat 64 i) ≠ 0xcc)
    (ten : (D.linear image 10 a).length = 10) :
    Legible H D w (overlay image (w.dbg.bp.map (·.addr)) 0xcc) (fun _ => True) image a := by
  refine ⟨fun i hi _ hcc => ?_, fun i _ h => absurd (fun _ _ => trivial) h, fun few => by omega⟩
  by_contra hoff
  rw [overlay_not_mem hoff] at hcc
  exact plain i hi hcc

theorem live_peeked {w : World (Machine Demo.Hidden)} {m : Memory 64}
    (memory : ∀ x, nopsHost.peek w.dbg.pid x w.os = load 8 m x) :
    PeekedFrom nopsHost w m fun _ => True :=
  ⟨fun x _ => memory x, fun _ h => absurd (fun _ _ => trivial) h⟩

/-- Two commands show the sixteen instructions of the program, one of which has a breakpoint, and
four behind it. -/
theorem disasm_sweeps_demo : ∃ w w' : World (Machine Demo.Hidden),
    (∃ b ∈ w.dbg.bp, b.addr = 0x40100c) ∧
    runAll (handle nopsHost) (fun _ _ _ => true)
      [.line ["disasm", "0x401000"], .line ["disasm"]] w = some w' ∧
    (insns w').map Insn.bytes = (insns w).map Insn.bytes ++
      (List.replicate 16 [0x90] ++ List.replicate 4 [0, 0]) := by
  obtain ⟨w, hw, hs⟩ := exists_reached (handle nopsHost)
    (fun w i w' => checkUndisturbed nopsHost w i w')
    (World.init (Demo.machine (Demo.program Demo.nops)))
    [.line ["load", "demo"], .line ["b", "0x40100c"], .line ["start"]]
    (fun w => checkStopped w fun c => (w.dbg.bp.any (fun b => b.addr = 0x40100c) &&
      (List.range 170).all fun i => c.image (0x401000 + BitVec.ofNat 64 i) ≠ 0xcc) &&
      ((nops.linear c.image 10 0x401000).map Insn.bytes = List.replicate 10 [0x90] &&
        (nops.linear c.image 20 0x401000).map Insn.bytes =
          List.replicate 16 [0x90] ++ List.replicate 4 [0, 0] &&
        (nops.linear c.image 10 0x40100a).length = 10))
    (by decide +kernel)
  have undisturbed : Reached _ (Undisturbed _) _ w := hw.mono fun _ _ _ => undisturbed_of_check
  obtain ⟨running, c, live, hc⟩ := checked_stopped hs
  obtain ⟨hc, hshown⟩ := Bool.and_eq_true_iff.mp hc
  obtain ⟨hset, hplain⟩ := Bool.and_eq_true_iff.mp hc
  obtain ⟨hshown, hnext⟩ := Bool.and_eq_true_iff.mp hshown
  obtain ⟨hten, htwenty⟩ := Bool.and_eq_true_iff.mp hshown
  obtain ⟨b, hb, ha⟩ := List.any_eq_true.mp hset
  obtain ⟨memory, saved⟩ := live_memory rfl undisturbed live
  have hten := of_decide_eq_true hten
  have hsize : Decoder.size Insn.bytes (nops.linear c.image 10 0x401000) = 10 := by
    rw [Decoder.size_map, hten]
    rfl
  have plain : ∀ i < 170, c.image (0x401000 + BitVec.ofNat 64 i) ≠ 0xcc := fun i hi =>
    of_decide_eq_true (List.all_eq_true.mp hplain i (List.mem_range.mpr hi))
  have htwenty := of_decide_eq_true htwenty
  have htotal : Decoder.size Insn.bytes (nops.linear c.image 20 0x401000) = 24 := by
    rw [Decoder.size_map, htwenty]
    rfl
  have first : Legible nopsHost nops w (overlay c.image (w.dbg.bp.map (·.addr)) 0xcc)
      (fun _ => True) c.image 0x401000 :=
    legible_plain (fun i hi => plain i (by omega)) (by simpa using congrArg List.length hten)
  have second : Legible nopsHost nops w (overlay c.image (w.dbg.bp.map (·.addr)) 0xcc)
      (fun _ => True) c.image (0x401000 + BitVec.ofNat 64 10) := by
    refine legible_plain (fun i hi => ?_) (of_decide_eq_true hnext)
    rw [BitVec.add_assoc, ← BitVec.ofNat_add]
    exact plain (10 + i) (by omega)
  have legible : ∀ k ≤ 1, Legible nopsHost nops w (overlay c.image (w.dbg.bp.map (·.addr)) 0xcc)
      (fun _ => True) c.image (0x401000 +
        BitVec.ofNat 64 (Decoder.size Insn.bytes (nops.linear c.image (10 * k) 0x401000))) := by
    refine forall_le_succ.mpr ⟨?_, fun k hk => ?_⟩
    · simpa [Decoder.linear] using first
    · obtain rfl : k = 0 := by omega
      rw [hsize]
      exact second
  have hat : strtoll "0x401000" = 0x401000 := by decide
  have below : (0x401000 : Word).toNat +
      Decoder.size Insn.bytes (nops.linear c.image (10 * 1) 0x401000) < 2 ^ 63 := by
    rw [hsize]
    decide
  have swept : ∀ i < Decoder.size Insn.bytes (nops.linear c.image (10 * (1 + 1)) 0x401000),
      True ∧ Original w.dbg.bp c.image (overlay c.image (w.dbg.bp.map (·.addr)) 0xcc)
        (0x401000 + BitVec.ofNat 64 i) := by
    intro i hi
    have within : i < 24 := htotal ▸ hi
    exact ⟨trivial, original_overlay saved fun hu => plain i (by omega) hu.1⟩
  have peeked := live_peeked memory
  have sweeps := disasm_sweeps_iff nopsHost nops (fun _ _ => rfl) c.image _ (fun _ => True) "disasm"
    (lookup_name _ .disasm) 1 w rfl running peeked ["0x401000"] 0x401000 (.inl (by simp)) hat
    (by decide) below swept
  obtain ⟨w', ran, insns⟩ := sweeps.mpr legible 1 (by omega)
  refine ⟨w, w', ⟨b, hb, of_decide_eq_true ha⟩, ran, ?_⟩
  rw [insns, List.map_append, htwenty]

/-- An `0xcc` right behind ten `nop`s, which the command reads although it shows only these. -/
theorem disasm_behind_crashes : ∃ (w : World (Machine Demo.Hidden)) (image m : Memory 64),
    w.dbg.stat = .running ∧ PeekedFrom nopsHost w m (fun _ => True) ∧
      (nops.linear image 10 0x401000).map Insn.bytes = List.replicate 10 [0x90] ∧
      (∀ i < Decoder.size Insn.bytes (nops.linear image 10 0x401000),
        Original w.dbg.bp image m (0x401000 + BitVec.ofNat 64 i)) ∧
      ¬Sweeps nopsHost nops image "disasm" ["0x401000"] 0 w 0x401000 := by
  obtain ⟨w, hw, hs⟩ := exists_reached (handle nopsHost)
    (fun w i w' => checkUndisturbed nopsHost w i w')
    (World.init (Demo.machine (Demo.program (List.replicate 10 0x90 ++ [0xcc]))))
    [.line ["load", "demo"], .line ["start"]]
    (fun w => checkStopped w fun c => (w.dbg.bp.isEmpty && c.image (0x401000 + 10) = 0xcc) &&
      ((List.range 10).all fun i => c.image (0x401000 + BitVec.ofNat 64 i) ≠ 0xcc) &&
      (nops.linear c.image 10 0x401000).map Insn.bytes = List.replicate 10 [0x90])
    (by decide +kernel)
  have undisturbed : Reached _ (Undisturbed _) _ w := hw.mono fun _ _ _ => undisturbed_of_check
  obtain ⟨running, c, live, hc⟩ := checked_stopped hs
  obtain ⟨hc, hten⟩ := Bool.and_eq_true_iff.mp hc
  obtain ⟨hc, hplain⟩ := Bool.and_eq_true_iff.mp hc
  obtain ⟨hempty, hcc⟩ := Bool.and_eq_true_iff.mp hc
  obtain ⟨memory, saved⟩ := live_memory rfl undisturbed live
  have hten := of_decide_eq_true hten
  have hsize : Decoder.size Insn.bytes (nops.linear c.image 10 0x401000) = 10 := by
    rw [Decoder.size_map, hten]
    rfl
  have none_set : ∀ x, x ∉ w.dbg.bp.map (·.addr) := by
    simp [List.isEmpty_iff.mp hempty]
  have original : ∀ i < Decoder.size Insn.bytes (nops.linear c.image 10 0x401000),
      Original w.dbg.bp c.image (overlay c.image (w.dbg.bp.map (·.addr)) 0xcc)
        (0x401000 + BitVec.ofNat 64 i) := by
    intro i hi
    refine original_overlay saved fun hu => ?_
    exact of_decide_eq_true (List.all_eq_true.mp hplain i (List.mem_range.mpr (by omega))) hu.1
  have peeked := live_peeked memory
  have given : ["0x401000"] ≠ [] ∨ w.dbg.ldisasm ≠ 0 := .inl (by simp)
  have hat : strtoll "0x401000" = 0x401000 := by decide
  refine ⟨w, c.image, _, running, peeked, hten, original, fun h => ?_⟩
  have legible := (legible_iff peeked fun i hi => ⟨trivial, original i hi⟩).mp
    ((sweeps_zero (fun _ _ => rfl) rfl (lookup_name _ .disasm) running given hat).mp h)
  refine none_set _ (legible.own 10 (by omega) (fun _ _ => trivial) ?_)
  rw [overlay_not_mem (none_set _)]
  exact of_decide_eq_true hcc

end UnixProgramming.Sdb.Proofs
