import UnixProgramming.Sdb.Proofs.Transparency

namespace UnixProgramming.Sdb.Proofs
open Lib

section Programs
variable {η : Type} {T : Isa η} {p p' q : Prog η} {s : List Word} {r r' : Prog η ⊕ Byte} {n : Nat}
  {c : Child η}

/-- A child that masks a program on its way to a stop or an end halts. -/
theorem Masks.halts (h : Masks s c p) (tame : p.Tame T s) {k : Nat} (hq : p.after T k = some q)
    (comes : q.regs .rip ∈ s ∨ (q.exits T).isSome) {fuel : Nat} (enough : k < fuel) :
    ∃ e, c.run T fuel = some e := by
  obtain ⟨fuel, rfl⟩ := Nat.exists_eq_add_one_of_ne_zero (Nat.ne_of_gt (Nat.zero_lt_of_lt enough))
  induction k generalizing p c fuel with
  | zero =>
    cases hq
    rw [Child.run]
    by_cases on : q.regs .rip ∈ s
    · rw [h.cover.trap on]
      exact ⟨_, rfl⟩
    · obtain ⟨code, ends⟩ := Option.isSome_iff_exists.mp (comes.resolve_left on)
      rw [h.exits tame (List.Subset.refl s) on ends]
      exact ⟨_, rfl⟩
  | succ k ih =>
    obtain ⟨p', step, hq⟩ := Option.bind_eq_some_iff.mp hq
    rw [Child.run]
    by_cases on : p.regs .rip ∈ s
    · rw [h.cover.trap on]
      exact ⟨_, rfl⟩
    · obtain ⟨c', hstep, h'⟩ := h.next tame (List.Subset.refl s) on step
      rw [hstep]
      obtain ⟨m, rfl⟩ := Nat.exists_eq_add_one_of_ne_zero (show fuel ≠ 0 by omega)
      exact ih h' (tame_next tame step) hq m (by omega)

end Programs

section Conts
variable {η : Type} {T : Isa η} {fuel : Nat} {B : Host (Machine η)} {w w' : World (Machine η)}
  {c : Child η} {word : String} {r : Prog η ⊕ Byte} {p' q : Prog η} (argv : List String)

end Conts

end UnixProgramming.Sdb.Proofs
