import UnixProgramming.Libmini.Signal

namespace UnixProgramming.Libmini.Proofs
open Lib

section Masks
variable {sig : CInt} {n i : Nat} {set : SigSet}

/-- The bit of a signal that does not reach the sign of an `int`. -/
theorem sigmask_bit (pos : 1 ≤ sig.toNat) (le : sig.toNat ≤ 31) :
    (sigmask sig).getLsbD i = decide (i = sig.toNat - 1) := by
  have hone : (1 : CInt).toNat = 1 := rfl
  have hshift : (sig - 1).toNat = sig.toNat - 1 := BitVec.toNat_sub_of_le (by
    rw [BitVec.le_def, hone]
    exact pos)
  unfold sigmask
  rw [BitVec.shiftLeft_eq', hshift, ← BitVec.twoPow_eq, BitVec.getLsbD_twoPow]
  by_cases h : i = sig.toNat - 1
  · simp [h]
    omega
  · simp [h, Ne.symm h]

theorem sigmask_msb (pos : 1 ≤ sig.toNat) (le : sig.toNat ≤ 31) : (sigmask sig).msb = false := by
  rw [BitVec.msb_eq_getLsbD_last, sigmask_bit pos le]
  exact decide_eq_false (by omega)

/-- Widened, the mask is still one bit. -/
theorem mask_bit (pos : 1 ≤ sig.toNat) (le : sig.toNat ≤ 31) :
    ((sigmask sig).signExtend 64).getLsbD i = decide (i = sig.toNat - 1) := by
  rw [BitVec.getLsbD_signExtend, sigmask_msb pos le, sigmask_bit pos le]
  by_cases h : i = sig.toNat - 1
  · simp [h]
    omega
  · simp [h]

/-- Its complement is widened with ones. -/
theorem hole_bit (pos : 1 ≤ sig.toNat) (le : sig.toNat ≤ 31) (hi : i < 64) :
    ((~~~sigmask sig).signExtend 64).getLsbD i = decide (i ≠ sig.toNat - 1) := by
  rw [BitVec.getLsbD_signExtend, BitVec.msb_not, sigmask_msb pos le, BitVec.getLsbD_not,
    sigmask_bit pos le]
  by_cases h : i = sig.toNat - 1
  · have hlow : i < 32 := by omega
    simp [h]
    omega
  · simp [h, hi]

theorem sigaddset_bit (pos : 1 ≤ sig.toNat) (le : sig.toNat ≤ 31) :
    (sigaddset set sig).getLsbD i = (set.getLsbD i || decide (i = sig.toNat - 1)) := by
  rw [sigaddset, BitVec.getLsbD_or, mask_bit pos le]

theorem sigdelset_bit (pos : 1 ≤ sig.toNat) (le : sig.toNat ≤ 31) :
    (sigdelset set sig).getLsbD i = (set.getLsbD i && decide (i ≠ sig.toNat - 1)) := by
  rw [sigdelset, BitVec.getLsbD_and]
  by_cases hi : i < 64
  · rw [hole_bit pos le hi]
  · simp [BitVec.getLsbD_of_ge set i (by omega)]

theorem sigismember_bit (pos : 1 ≤ sig.toNat) (le : sig.toNat ≤ 31) :
    sigismember set sig = 1 ↔ set.getLsbD (sig.toNat - 1) = true := by
  have hbits : set &&& (sigmask sig).signExtend 64 = 0 ↔ set.getLsbD (sig.toNat - 1) = false := by
    constructor
    · intro he
      have hb := congrArg (fun v => v.getLsbD (sig.toNat - 1)) he
      simpa [BitVec.getLsbD_and, mask_bit pos le] using hb
    · intro h
      apply BitVec.eq_of_getLsbD_eq
      intro i _
      rw [BitVec.getLsbD_and, mask_bit pos le]
      by_cases hi : i = sig.toNat - 1
      · simp [hi, h]
      · simp [hi]
  by_cases h : set.getLsbD (sig.toNat - 1) = true
  · have hne := mt hbits.mp (by simp [h])
    rw [sigismember, if_pos hne]
    simp [h]
  · have he := hbits.mpr (by simpa using h)
    rw [sigismember, if_neg (not_not_intro he)]
    simp [h]

end Masks

section Runs
variable {n : Nat}

/-- The signals up to `n` in a `sigset_t`, as the kernel reads it. -/
def members (n : Nat) (set : SigSet) : Set (Signal n) := {t | set.getLsbD (t.num.toNat - 1) = true}

theorem sigismember_iff {t : Signal n} {set : SigSet} (small : n ≤ 31) :
    sigismember set t.num = 1 ↔ t ∈ members n set :=
  sigismember_bit t.pos (Nat.le_trans t.le small)

theorem same_bit {t sig : Signal n} : t.num.toNat - 1 = sig.num.toNat - 1 ↔ t = sig := by
  have ht := t.pos
  have hs := sig.pos
  constructor
  · intro h
    have hnum : t.num = sig.num := BitVec.eq_of_toNat_eq (by omega)
    cases t
    cases sig
    cases hnum
    rfl
  · rintro rfl
    rfl

/-- Each macro does to the members what it is for. -/
theorem members_step (small : n ≤ 31) (set : SigSet) (op : SetOp (Signal n)) :
    members n (set.step op) = op.apply (members n set) := by
  ext t
  cases op with
  | clear =>
    show (0 : SigSet).getLsbD _ = true ↔ t ∈ (∅ : Set (Signal n))
    simp
  | add sig =>
    show (sigaddset set sig.num).getLsbD _ = true ↔ t ∈ insert sig (members n set)
    rw [sigaddset_bit sig.pos (Nat.le_trans sig.le small), Set.mem_insert_iff, Bool.or_eq_true,
      decide_eq_true_iff, same_bit]
    exact or_comm
  | remove sig =>
    show (sigdelset set sig.num).getLsbD _ = true ↔ t ∈ members n set \ {sig}
    rw [sigdelset_bit sig.pos (Nat.le_trans sig.le small), Set.mem_sdiff, Set.mem_singleton_iff,
      Bool.and_eq_true, decide_eq_true_iff, ne_eq, same_bit]
    rfl

theorem members_run (small : n ≤ 31) (set : SigSet) (ops : List (SetOp (Signal n))) :
    members n (ops.foldl SigSet.step set) = applyAll (members n set) ops := by
  apply applyAll_refines (R := fun set s => members n set = s) _ rfl
  rintro set _ op rfl
  exact members_step small set op

theorem signal_below (sig : Signal n) {i : Nat} (hi : n ≤ i) : i ≠ sig.num.toNat - 1 := by
  have hpos := sig.pos
  have hle := sig.le
  omega

/-- Without `sigemptyset` the bits of the signals above `n` stay. -/
theorem upper_step (small : n ≤ 31) {op : SetOp (Signal n)} (kept : op ≠ .clear) (set : SigSet)
    {i : Nat} (hi : n ≤ i) : (set.step op).getLsbD i = set.getLsbD i := by
  cases op with
  | clear => exact absurd rfl kept
  | add sig =>
    show (sigaddset set sig.num).getLsbD i = _
    simp [sigaddset_bit sig.pos (Nat.le_trans sig.le small), signal_below sig hi]
  | remove sig =>
    show (sigdelset set sig.num).getLsbD i = _
    simp [sigdelset_bit sig.pos (Nat.le_trans sig.le small), signal_below sig hi]

theorem upper_run (small : n ≤ 31) {ops : List (SetOp (Signal n))} (kept : .clear ∉ ops)
    (set : SigSet) {i : Nat} (hi : n ≤ i) :
    (ops.foldl SigSet.step set).getLsbD i = set.getLsbD i := by
  induction ops generalizing set with
  | nil => rfl
  | cons op ops ih =>
    rw [List.mem_cons, not_or] at kept
    rw [List.foldl_cons, ih kept.2, upper_step small (Ne.symm kept.1) set hi]

/-- The macros on a `sigset_t` are the operations on the set of its signals. -/
theorem sigset_operations (s : SigSet) (ops : List (SetOp (Signal 31))) :
    (∀ t : Signal 31, sigismember (ops.foldl SigSet.step s) t.num = 1 ↔
      t ∈ applyAll (members 31 s) ops) ∧
    (.clear ∉ ops → ∀ i, 31 ≤ i → (ops.foldl SigSet.step s).getLsbD i = s.getLsbD i) := by
  constructor
  · intro t
    rw [sigismember_iff (Nat.le_refl 31), members_run (Nat.le_refl 31)]
  · intro kept i hi
    exact upper_run (Nat.le_refl 31) kept s hi

end Runs

section Fill

/-- SIGIO. -/
def last : Signal NSIG.toNat := ⟨NSIG, by decide, Nat.le_refl _⟩

/-- A run after `sigfillset` has the signals whose last operation was not a `sigdelset`. -/
def HoldsAll (set : SigSet) (ops : List (SetOp (Signal NSIG.toNat))) : Prop :=
  ∀ t : Signal NSIG.toNat, sigismember (ops.foldl SigSet.step (sigfillset set)) t.num = 1 ↔
    lastOn t ops ≠ some (.remove t)

/-- `sigfillset` stops one signal short. -/
theorem mem_sigfillset {set : SigSet} {t : Signal NSIG.toNat} :
    t ∈ members NSIG.toNat (sigfillset set) ↔ t ≠ last := by
  have hfill : sigfillset set = BitVec.ofNat 64 (2 ^ 28 - 1) := rfl
  have hlast : last.num.toNat - 1 = 28 := rfl
  have hle : t.num.toNat ≤ 29 := t.le
  have hpos := t.pos
  show (sigfillset set).getLsbD _ = true ↔ _
  rw [hfill, BitVec.getLsbD_ofNat, Nat.testBit_two_pow_sub_one, ne_eq, ← same_bit, hlast]
  simp
  omega

/-- After `sigfillset` the set is right from the time SIGIO is first added or deleted by itself. -/
theorem sigfillset_holds (set : SigSet) (ops : List (SetOp (Signal NSIG.toNat)))
    (kept : .clear ∉ ops) : HoldsAll set ops ↔ ∃ op ∈ ops, op.on = some last := by
  have small : NSIG.toNat ≤ 31 := by decide
  have hrun : ∀ t : Signal NSIG.toNat,
      sigismember (ops.foldl SigSet.step (sigfillset set)) t.num = 1 ↔
        lastOn t ops ≠ some (.remove t) ∧ (lastOn t ops = none → t ≠ last) := by
    intro t
    rw [sigismember_iff small, members_run small, mem_applyAll kept, mem_sigfillset]
  constructor
  · intro h
    by_contra hnone
    have hlast : lastOn last ops = none := by
      rw [lastOn_none]
      intro op hop he
      exact hnone ⟨op, hop, he⟩
    have ht := (hrun last).mp ((h last).mpr (by simp [hlast]))
    exact ht.2 hlast rfl
  · rintro ⟨op, hop, he⟩ t
    rw [hrun t]
    constructor
    · exact fun ht => ht.1
    · intro ht
      refine ⟨ht, ?_⟩
      rintro hnone rfl
      exact lastOn_none.mp hnone op hop he

theorem sigfillset_holds_sigio : HoldsAll 0 [.add last] :=
  (sigfillset_holds 0 [.add last] (by simp)).mpr ⟨.add last, List.mem_singleton_self _, rfl⟩

/-- Right after `sigfillset`, SIGIO is missing. -/
theorem sigfillset_misses : ¬HoldsAll 0 [] := by
  intro h
  have hlast := (h last).mpr (by simp [lastOn])
  exact absurd hlast (by decide)

end Fill

end UnixProgramming.Libmini.Proofs
