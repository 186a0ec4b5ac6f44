import Mathlib.Data.List.Basic

namespace UnixProgramming.Lib

/-- From `s`, `c` ends in `Q` when it returns and in `E` when it stops early. -/
def Wp (c : EStateM ε σ α) (Q : α → σ → Prop) (E : ε → σ → Prop) (s : σ) : Prop :=
  match c s with
  | .ok a s' => Q a s'
  | .error e s' => E e s'

section Rules
variable {ε σ α β : Type} {c d : EStateM ε σ α} {f : α → EStateM ε σ β}
  {Q Q' : α → σ → Prop} {R : β → σ → Prop} {E E' : ε → σ → Prop} {s : σ}

@[simp] theorem wp_pure (a : α) : Wp (pure a : EStateM ε σ α) Q E s ↔ Q a s := Iff.rfl

@[simp] theorem wp_throw (e : ε) : Wp (throw e : EStateM ε σ α) Q E s ↔ E e s := Iff.rfl

@[simp] theorem wp_bind : Wp (c >>= f) R E s ↔ Wp c (fun a => Wp (f a) R E) E s := by
  simp only [Wp, bind, EStateM.bind]
  cases c s <;> rfl

@[simp] theorem wp_get {Q : σ → σ → Prop} : Wp (get : EStateM ε σ σ) Q E s ↔ Q s s := Iff.rfl

@[simp] theorem wp_modify {Q : PUnit → σ → Prop} (g : σ → σ) :
    Wp (modify g : EStateM ε σ PUnit) Q E s ↔ Q ⟨⟩ (g s) := Iff.rfl

@[simp] theorem wp_ite {p : Prop} [Decidable p] :
    Wp (if p then c else d) Q E s ↔ (p → Wp c Q E s) ∧ (¬p → Wp d Q E s) := by
  by_cases hp : p <;> simp [hp]

theorem Wp.mono (h : Wp c Q E s) (hq : ∀ a s', Q a s' → Q' a s')
    (he : ∀ e s', E e s' → E' e s') : Wp c Q' E' s := by
  unfold Wp at h ⊢
  cases hc : c s with
  | ok a s' => rw [hc] at h; exact hq a s' h
  | error e s' => rw [hc] at h; exact he e s' h

theorem Wp.and (h : Wp c Q E s) (h' : Wp c Q' E' s) :
    Wp c (fun a s' => Q a s' ∧ Q' a s') (fun e s' => E e s' ∧ E' e s') s := by
  unfold Wp at h h' ⊢
  cases hc : c s with
  | ok a s' => rw [hc] at h h'; exact ⟨h, h'⟩
  | error e s' => rw [hc] at h h'; exact ⟨h, h'⟩

theorem Wp.ok {a : α} {s' : σ} (h : Wp c Q E s) (hc : c s = .ok a s') : Q a s' := by
  unfold Wp at h
  rw [hc] at h
  exact h

theorem Wp.error {e : ε} {s' : σ} (h : Wp c Q E s) (hc : c s = .error e s') : E e s' := by
  unfold Wp at h
  rw [hc] at h
  exact h

theorem Wp.fails (h : Wp c (fun _ _ => False) E s) : ∃ e s', c s = .error e s' ∧ E e s' := by
  unfold Wp at h
  cases hc : c s with
  | ok a s' => rw [hc] at h; exact h.elim
  | error e s' => rw [hc] at h; exact ⟨e, s', rfl, h⟩

theorem Wp.returns (h : Wp c Q E s) (sure : ∀ e s', ¬E e s') : ∃ a s', c s = .ok a s' ∧ Q a s' := by
  unfold Wp at h
  cases hc : c s with
  | ok a s' => rw [hc] at h; exact ⟨a, s', rfl, h⟩
  | error e s' => rw [hc] at h; exact absurd h (sure e s')

/-- A computation that comes to another one from a state further on. -/
theorem Wp.of_eq {s' : σ} (h : Wp c Q E s') (he : d s = c s') : Wp d Q E s := by
  unfold Wp
  rw [he]
  exact h

end Rules

/-- States at the prompt: those reached from `s₀` by inputs that all returned
and whose transitions all meet `P`. -/
inductive Reached (step : ι → EStateM ε σ Unit) (P : σ → ι → σ → Prop) (s₀ : σ) : σ → Prop
  | init : Reached step P s₀ s₀
  | next {s i s'} (before : Reached step P s₀ s) (ran : step i s = .ok () s')
      (meets : P s i s') : Reached step P s₀ s'

/-- What holds at the start and survives every step holds at every prompt. -/
theorem Reached.invariant {step : ι → EStateM ε σ Unit} {P : σ → ι → σ → Prop} {s₀ s : σ}
    {I : σ → Prop} (h : Reached step P s₀ s) (init : I s₀)
    (keep : ∀ s i s', Reached step P s₀ s → I s → P s i s' → step i s = .ok () s' → I s') :
    I s := by
  induction h with
  | init => exact init
  | next before ran meets ih => exact keep _ _ _ before ih meets ran

theorem Reached.mono {step : ι → EStateM ε σ Unit} {P P' : σ → ι → σ → Prop} {s₀ s : σ}
    (h : Reached step P s₀ s) (imp : ∀ s i s', P s i s' → P' s i s') :
    Reached step P' s₀ s := by
  induction h with
  | init => exact .init
  | next before ran meets ih => exact .next ih ran (imp _ _ _ meets)

/-- `P` holds of each input of a list in the state that it comes in. -/
def Throughout (step : ι → EStateM ε σ Unit) (P : σ → ι → Prop) : List ι → σ → Prop
  | [], _ => True
  | i :: rest, s => P s i ∧ ∀ s', step i s = .ok () s' → Throughout step P rest s'

/-- Where two properties agree as long as an invariant holds, a run has both or neither. -/
theorem throughout_congr {step : ι → EStateM ε σ Unit} {P Q : σ → ι → Prop} {I : σ → Prop}
    {is : List ι} {s : σ} (keep : ∀ s i s', I s → step i s = .ok () s' → I s')
    (agree : ∀ s, I s → ∀ i ∈ is, P s i ↔ Q s i) (hs : I s) :
    Throughout step P is s ↔ Throughout step Q is s := by
  induction is generalizing s with
  | nil => exact Iff.rfl
  | cons i rest ih =>
    have hrest : ∀ s, I s → ∀ i ∈ rest, P s i ↔ Q s i :=
      fun s hs i hi => agree s hs i (List.mem_cons_of_mem _ hi)
    unfold Throughout
    rw [agree s hs i List.mem_cons_self]
    refine and_congr_right fun _ => forall_congr' fun s' => imp_congr_right fun hstep => ?_
    exact ih hrest (keep s i s' hs hstep)

/-- A run whose transitions all meet `P`, with what `note` says about each of them, the first
one first. -/
inductive Recorded (step : ι → EStateM ε σ Unit) (P : σ → ι → σ → Prop) (note : σ → ι → ν) (s₀ : σ) :
    List ν → σ → Prop
  | init : Recorded step P note s₀ [] s₀
  | next {ns s i s'} (before : Recorded step P note s₀ ns s) (ran : step i s = .ok () s')
      (meets : P s i s') : Recorded step P note s₀ (ns ++ [note s i]) s'

section Notes
variable {step : ι → EStateM ε σ Unit} {P P' : σ → ι → σ → Prop} {note : σ → ι → ν} {s₀ s : σ}
  {ns : List ν}

theorem Recorded.reached (h : Recorded step P note s₀ ns s) : Reached step P s₀ s := by
  induction h with
  | init => exact .init
  | next before ran meets ih => exact ih.next ran meets

theorem Recorded.mono (h : Recorded step P note s₀ ns s) (imp : ∀ s i s', P s i s' → P' s i s') :
    Recorded step P' note s₀ ns s := by
  induction h with
  | init => exact .init
  | next before ran meets ih => exact ih.next ran (imp _ _ _ meets)

/-- What the transitions say of their notes holds of all of them. -/
theorem Recorded.noted {Q : ν → Prop} (h : Recorded step P note s₀ ns s)
    (imp : ∀ s i s', P s i s' → Q (note s i)) : ∀ n ∈ ns, Q n := by
  induction h with
  | init => simp
  | next before ran meets ih =>
    intro n hn
    rcases List.mem_append.mp hn with hn | hn
    · exact ih n hn
    · rw [List.mem_singleton.mp hn]
      exact imp _ _ _ meets

end Notes

/-- The state after a list of inputs, if each returns and each transition passes `ok`. -/
def runAll (step : ι → EStateM ε σ Unit) (ok : σ → ι → σ → Bool) : List ι → σ → Option σ
  | [], s => some s
  | i :: rest, s =>
    match step i s with
    | .ok _ s' => if ok s i s' then runAll step ok rest s' else none
    | .error _ _ => none

/-- The state a computation returns in. -/
def returned : EStateM.Result ε σ α → Option σ
  | .ok _ s => some s
  | .error _ _ => none

@[simp] theorem returned_eq_some {r : EStateM.Result ε σ α} {s : σ} :
    returned r = some s ↔ ∃ a, r = .ok a s := by
  cases r <;> simp [returned]

/-- A run that can be computed is a run. -/
theorem Reached.runAll {step : ι → EStateM ε σ Unit} {ok : σ → ι → σ → Bool} {s₀ s s' : σ}
    {is : List ι} (before : Reached step (fun s i s' => ok s i s' = true) s₀ s)
    (h : runAll step ok is s = some s') :
    Reached step (fun s i s' => ok s i s' = true) s₀ s' := by
  induction is generalizing s with
  | nil => cases h; exact before
  | cons i rest ih =>
    unfold Lib.runAll at h
    cases hi : step i s with
    | error e s₁ => rw [hi] at h; cases h
    | ok u s₁ =>
      rw [hi] at h
      dsimp only at h
      split at h
      · rename_i hok
        exact ih (before.next hi hok) h
      · cases h

theorem Recorded.runAll {step : ι → EStateM ε σ Unit} {note : σ → ι → ν} {ok : σ → ι → σ → Bool}
    {s₀ s s' : σ} {ns : List ν} {is : List ι}
    (before : Recorded step (fun s i s' => ok s i s' = true) note s₀ ns s)
    (h : runAll step ok is s = some s') :
    ∃ ns', Recorded step (fun s i s' => ok s i s' = true) note s₀ ns' s' ∧
      ns'.length = ns.length + is.length := by
  induction is generalizing s ns with
  | nil => cases h; exact ⟨ns, before, rfl⟩
  | cons i rest ih =>
    unfold Lib.runAll at h
    cases hi : step i s with
    | error e s₁ => rw [hi] at h; cases h
    | ok u s₁ =>
      rw [hi] at h
      dsimp only at h
      split at h
      · rename_i hok
        obtain ⟨ns', hr, hl⟩ := ih (before.next hi hok) h
        refine ⟨ns', hr, ?_⟩
        rw [hl, List.length_append, List.length_singleton, List.length_cons]
        omega
      · cases h

theorem exists_recorded (step : ι → EStateM ε σ Unit) (ok : σ → ι → σ → Bool) (note : σ → ι → ν)
    (s₀ : σ) (is : List ι) (p : σ → Bool) (h : (runAll step ok is s₀).any p = true) :
    ∃ ns s, Recorded step (fun s i s' => ok s i s' = true) note s₀ ns s ∧ ns.length = is.length ∧
      p s = true := by
  obtain ⟨s, hs, hp⟩ := (Option.any_eq_true _ _).mp h
  have hi : Recorded step (fun s i s' => ok s i s' = true) note s₀ [] s₀ := .init
  obtain ⟨ns, hr, hl⟩ := hi.runAll hs
  exact ⟨ns, s, hr, by simpa using hl, hp⟩

theorem exists_reached (step : ι → EStateM ε σ Unit) (ok : σ → ι → σ → Bool) (s₀ : σ)
    (is : List ι) (p : σ → Bool) (h : (runAll step ok is s₀).any p = true) :
    ∃ s, Reached step (fun s i s' => ok s i s' = true) s₀ s ∧ p s = true := by
  obtain ⟨s, hs, hp⟩ := (Option.any_eq_true _ _).mp h
  exact ⟨s, .runAll .init hs, hp⟩

theorem exists_run (step : ι → EStateM ε σ Unit) (s₀ : σ) (is : List ι) (p : σ → Bool)
    (h : (runAll step (fun _ _ _ => true) is s₀).any p = true) :
    ∃ s, Reached step (fun _ _ _ => True) s₀ s ∧ p s = true := by
  obtain ⟨s, hs, hp⟩ := exists_reached step _ s₀ is p h
  exact ⟨s, hs.mono (fun _ _ _ _ => trivial), hp⟩

end UnixProgramming.Lib
