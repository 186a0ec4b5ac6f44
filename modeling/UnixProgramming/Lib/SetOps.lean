import Mathlib.Data.List.Induction
import Mathlib.Data.Set.Insert

namespace UnixProgramming.Lib

/-- A change to a set. -/
inductive SetOp (α : Type)
  | clear
  | add (a : α)
  | remove (a : α)
deriving DecidableEq

section
variable {α : Type}

def SetOp.apply (s : Set α) : SetOp α → Set α
  | .clear => ∅
  | .add a => insert a s
  | .remove a => s \ {a}

def applyAll (s : Set α) (ops : List (SetOp α)) : Set α := ops.foldl SetOp.apply s

/-- The element an operation names. -/
def SetOp.on : SetOp α → Option α
  | .clear => none
  | .add a => some a
  | .remove a => some a

/-- The last operation that names `a`. -/
def lastOn [DecidableEq α] (a : α) (ops : List (SetOp α)) : Option (SetOp α) :=
  ops.reverse.find? fun op => op.on = some a

/-- Where every operation of an implementation keeps its relation to the set, a run does. -/
theorem applyAll_refines {γ : Type} {R : γ → Set α → Prop} {step : γ → SetOp α → γ}
    (keeps : ∀ c s op, R c s → R (step c op) (op.apply s)) {c : γ} {s : Set α} (h : R c s)
    (ops : List (SetOp α)) : R (ops.foldl step c) (applyAll s ops) := by
  induction ops generalizing c s with
  | nil => exact h
  | cons op ops ih => exact ih (keeps c s op h)

variable [DecidableEq α] {a : α} {op : SetOp α} {ops : List (SetOp α)} {s : Set α}

theorem lastOn_append : lastOn a (ops ++ [op]) = if op.on = some a then some op else lastOn a ops := by
  simp [lastOn, List.find?_cons]
  split <;> simp_all

theorem lastOn_none : lastOn a ops = none ↔ ∀ op ∈ ops, op.on ≠ some a := by
  simp [lastOn]

/-- Without a `clear` the last operation on an element decides, and if there is none, how the set
began. -/
theorem mem_applyAll (kept : .clear ∉ ops) :
    a ∈ applyAll s ops ↔ lastOn a ops ≠ some (.remove a) ∧ (lastOn a ops = none → a ∈ s) := by
  induction ops using List.reverseRecOn with
  | nil => simp [applyAll, lastOn]
  | append_singleton ops op ih =>
    rw [List.mem_append, not_or] at kept
    have ih := ih kept.1
    have hlast : applyAll s (ops ++ [op]) = op.apply (applyAll s ops) := by
      simp [applyAll]
    rw [hlast, lastOn_append]
    cases op with
    | clear => simp at kept
    | add b =>
      by_cases hb : b = a
      · simp [SetOp.apply, SetOp.on, hb]
      · have ha : a ≠ b := fun he => hb he.symm
        simp [SetOp.apply, SetOp.on, hb, ha, ih]
    | remove b =>
      by_cases hb : b = a
      · simp [SetOp.apply, SetOp.on, hb]
      · have ha : a ≠ b := fun he => hb he.symm
        simp [SetOp.apply, SetOp.on, hb, ha, ih]

end

end UnixProgramming.Lib
