import Mathlib.Data.List.Induction
import Mathlib.Data.List.Nodup

namespace UnixProgramming.Lib

/-- Distinct values in the order they were entered, each under a number that is never
given twice. -/
structure Roster (α : Type) where
  next : Nat
  entries : List (Nat × α)
  ordered : entries.Pairwise (fun a b => a.1 < b.1)
  below : ∀ e ∈ entries, e.1 < next
  distinct : (entries.map Prod.snd).Nodup

/-- What can happen to a roster. -/
inductive Entry (α : Type)
  | clear
  | add (a : α)
  | remove (n : Nat)
  | keep

namespace Roster
variable {α : Type}

def empty : Roster α := ⟨0, [], .nil, by simp, .nil⟩

def values (r : Roster α) : List α := r.entries.map Prod.snd

def push (r : Roster α) (a : α) (fresh : a ∉ r.values) : Roster α where
  next := r.next + 1
  entries := r.entries ++ [(r.next, a)]
  ordered := by
    apply List.pairwise_append.mpr
    refine ⟨r.ordered, by simp, ?_⟩
    intro e he e' he'
    rw [List.mem_singleton.mp he']
    exact r.below e he
  below := by
    intro e he
    rcases List.mem_append.mp he with hold | hnew
    · have := r.below e hold
      omega
    · rw [List.mem_singleton.mp hnew]
      exact Nat.lt_succ_self _
  distinct := by
    rw [List.map_append]
    apply List.nodup_append.mpr
    refine ⟨r.distinct, by simp, ?_⟩
    intro b hb c hc h
    rw [h, List.mem_singleton.mp hc] at hb
    exact fresh hb

def remove (r : Roster α) (n : Nat) : Roster α where
  next := r.next
  entries := r.entries.filter (·.1 ≠ n)
  ordered := r.ordered.filter _
  below := fun e he => r.below e (List.mem_of_mem_filter he)
  distinct := r.distinct.sublist (List.filter_sublist.map _)

/-- A number names at most one entry. -/
theorem entry_unique (r : Roster α) {e e' : Nat × α} (he : e ∈ r.entries) (he' : e' ∈ r.entries)
    (h : e.1 = e'.1) : e = e' := by
  have hn : (r.entries.map Prod.fst).Nodup := List.pairwise_map.mpr (r.ordered.imp Nat.ne_of_lt)
  exact List.inj_on_of_nodup_map hn he he' h

variable [DecidableEq α]

/-- A value is entered once. -/
def add (r : Roster α) (a : α) : Roster α := if h : a ∈ r.values then r else r.push a h

def apply (r : Roster α) : Entry α → Roster α
  | .clear => empty
  | .add a => r.add a
  | .remove n => r.remove n
  | .keep => r

def replay (es : List (Entry α)) : Roster α := es.foldl apply empty

@[simp] theorem replay_nil : replay ([] : List (Entry α)) = empty := rfl

@[simp] theorem replay_append (es : List (Entry α)) (e : Entry α) :
    replay (es ++ [e]) = (replay es).apply e := by
  simp [replay]

theorem add_fresh {r : Roster α} {a : α} (h : a ∉ r.values) :
    (r.add a).next = r.next + 1 ∧ (r.add a).entries = r.entries ++ [(r.next, a)] := by
  rw [add, dif_neg h]
  exact ⟨rfl, rfl⟩

def isAdd : Entry α → Bool
  | .add _ => true
  | _ => false

theorem apply_next (r : Roster α) (e : Entry α) :
    (r.apply e).next ≤ r.next + if isAdd e then 1 else 0 := by
  cases e with
  | clear => exact Nat.zero_le _
  | remove n => exact Nat.le_refl _
  | keep => exact Nat.le_refl _
  | add a =>
    by_cases h : a ∈ r.values
    · have he : r.apply (.add a) = r := dif_pos h
      rw [he]
      exact Nat.le_add_right _ _
    · exact Nat.le_of_eq (add_fresh h).1

/-- No more numbers are in use than values were entered. -/
theorem replay_next (es : List (Entry α)) : (replay es).next ≤ es.countP isAdd := by
  induction es using List.reverseRecOn with
  | nil => exact Nat.le_refl 0
  | append_singleton es e ih =>
    have hstep := apply_next (replay es) e
    rw [replay_append, List.countP_append, List.countP_singleton]
    omega

/-- An entry keeps its value as long as the roster is not cleared. -/
theorem apply_stable {r : Roster α} {e : Entry α} (kept : e ≠ .clear) {n : Nat} {a b : α}
    (ha : (n, a) ∈ r.entries) (hb : (n, b) ∈ (r.apply e).entries) : (n, b) ∈ r.entries := by
  cases e with
  | clear => exact absurd rfl kept
  | remove k => exact List.mem_of_mem_filter hb
  | keep => exact hb
  | add c =>
    by_cases h : c ∈ r.values
    · have he : r.apply (.add c) = r := dif_pos h
      rwa [he] at hb
    · have he : (r.apply (.add c)).entries = r.entries ++ [(r.next, c)] := (add_fresh h).2
      rw [he] at hb
      rcases List.mem_append.mp hb with hold | hnew
      · exact hold
      · have hlt := r.below _ ha
        have heq := congrArg Prod.fst (List.mem_singleton.mp hnew)
        dsimp only at hlt heq
        omega

end Roster
end UnixProgramming.Lib
