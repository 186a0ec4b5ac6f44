import UnixProgramming.Sdb.Main

namespace UnixProgramming.Sdb.Proofs
open Lib

/-- `exec` is there, and does what it does, for one word or more. -/
def OnWords {σ : Type} (H : Host σ) (exec : Option (List String) → DbgM σ Unit) : Prop :=
  ∀ word words, exec (some (word :: words)) = execWords H (some (word :: words))

/-- On these lines the loop never calls `exec` without a word or with what `wordexp` left unset:
what `exec` would do then makes no difference. -/
def OnlyWords {σ : Type} (H : Host σ) (wordexp : String → σ → Option (List String))
    (lines : List String) (w : World σ) : Prop :=
  ∀ exec, OnWords H exec →
    mainLoop wordexp exec lines w = mainLoop wordexp (execWords H) lines w

/-- The line is empty, or `wordexp` takes it and finds a word in it. -/
def HasWord {σ : Type} (wordexp : String → σ → Option (List String)) (w : World σ) (line : String) :
    Prop :=
  line.isEmpty = true ∨ ∃ word words, wordexp line w.os = some (word :: words)

section
variable {σ : Type} {H : Host σ} {wordexp : String → σ → Option (List String)}
  {exec : Option (List String) → DbgM σ Unit} {w : World σ} {line : String} {lines : List String}

theorem prompt_empty (h : line.isEmpty = true) : prompt wordexp exec line w = .ok () w := by
  rw [prompt, if_pos h]
  rfl

theorem prompt_words (h : line.isEmpty = false) :
    prompt wordexp exec line w = exec (wordexp line w.os) w := by
  rw [prompt, if_neg (by simp [h])]
  rfl

/-- A line with words is the input that the rest of the development knows. -/
theorem prompt_handle {words : List String} (some_ : line.isEmpty = false)
    (h : wordexp line w.os = some words) :
    prompt wordexp (execWords H) line w = handle H (.line words) w := by
  rw [prompt_words some_, h]
  rfl

theorem mainLoop_cons : mainLoop wordexp exec (line :: lines) w =
    match prompt wordexp exec line w with
    | .ok _ w' => mainLoop wordexp exec lines w'
    | .error e w' => .error e w' := by
  rw [mainLoop]
  simp only [bind, EStateM.bind]
  cases prompt wordexp exec line w <;> rfl

/-- A line with a word is the same to every `exec`. -/
theorem prompt_congr (on : OnWords H exec) (h : HasWord wordexp w line) :
    prompt wordexp exec line w = prompt wordexp (execWords H) line w := by
  cases hempty : line.isEmpty with
  | true => rw [prompt_empty hempty, prompt_empty hempty]
  | false =>
    rcases h with h | ⟨word, words, h⟩
    · rw [hempty] at h
      cases h
    · rw [prompt_words hempty, prompt_words hempty, h, on]

theorem onlyWords_of (h : Throughout (prompt wordexp (execWords H)) (HasWord wordexp) lines w) :
    OnlyWords H wordexp lines w := by
  induction lines generalizing w with
  | nil =>
    intro exec _
    rfl
  | cons line rest ih =>
    intro exec on
    obtain ⟨hword, hrest⟩ := h
    rw [mainLoop_cons, mainLoop_cons, prompt_congr on hword]
    cases hp : prompt wordexp (execWords H) line w with
    | error e w' => rfl
    | ok u w' => exact ih (hrest w' hp) exec on

/-- An `exec` that never comes back from a call without words. -/
def stuckExec {σ : Type} (H : Host σ) : Option (List String) → DbgM σ Unit
  | some (word :: words) => execWords H (some (word :: words))
  | _ => throw .hang

theorem stuckExec_words : OnWords H (stuckExec H) := fun _ _ => rfl

/-- A line without a word crashes the prompt, where `stuckExec` never comes back. -/
theorem prompt_crashes (h : ¬HasWord wordexp w line) :
    prompt wordexp (execWords H) line w = .error .crash w ∧
      prompt wordexp (stuckExec H) line w = .error .hang w := by
  obtain ⟨hempty, hwords⟩ := not_or.mp h
  have hempty : line.isEmpty = false := by simpa using hempty
  rw [prompt_words hempty, prompt_words hempty]
  cases hw : wordexp line w.os with
  | none => exact ⟨rfl, rfl⟩
  | some words =>
    cases words with
    | nil => exact ⟨rfl, rfl⟩
    | cons word words => exact absurd ⟨word, words, hw⟩ hwords

theorem of_onlyWords (h : OnlyWords H wordexp lines w) :
    Throughout (prompt wordexp (execWords H)) (HasWord wordexp) lines w := by
  induction lines generalizing w with
  | nil => trivial
  | cons line rest ih =>
    have hword : HasWord wordexp w line := by
      by_contra hno
      obtain ⟨hcrash, hstuck⟩ := prompt_crashes (H := H) hno
      have hs := h (stuckExec H) stuckExec_words
      rw [mainLoop_cons, mainLoop_cons, hcrash, hstuck] at hs
      cases hs
    refine ⟨hword, fun w' hp => ih fun exec on => ?_⟩
    have hs := h exec on
    rw [mainLoop_cons, mainLoop_cons, prompt_congr on hword, hp] at hs
    exact hs

/-- What the loop reaches is reached by the inputs its lines stand for. -/
theorem mainLoop_reached {s₀ w' : World σ}
    (before : Reached (handle H) (fun _ _ _ => True) s₀ w)
    (ran : mainLoop wordexp (execWords H) lines w = .ok () w') :
    Reached (handle H) (fun _ _ _ => True) s₀ w' := by
  induction lines generalizing w with
  | nil =>
    cases ran
    exact before
  | cons line rest ih =>
    rw [mainLoop_cons] at ran
    cases hp : prompt wordexp (execWords H) line w with
    | error e w₁ =>
      rw [hp] at ran
      cases ran
    | ok u w₁ =>
      rw [hp] at ran
      refine ih ?_ ran
      cases hempty : line.isEmpty with
      | true =>
        rw [prompt_empty hempty] at hp
        cases hp
        exact before
      | false =>
        cases hw : wordexp line w.os with
        | none =>
          rw [prompt_words hempty, hw] at hp
          cases hp
        | some words =>
          rw [prompt_handle hempty hw] at hp
          exact before.next hp trivial

/-- Every session of `main` is a run of the inputs that the invariants are about. -/
theorem session_reached {argv : List String} {os : σ} {w' : World σ}
    (ran : session H wordexp argv lines (World.init os) = .ok () w') :
    Reached (handle H) (fun _ _ _ => True) (World.init os) w' := by
  by_cases hargs : 2 ≤ argv.length
  · simp only [session, if_pos hargs, bind, EStateM.bind] at ran
    cases hl : execWords H (some (copyArgv "load" argv)) (World.init os) with
    | error e w₁ =>
      rw [hl] at ran
      cases ran
    | ok u w₁ =>
      rw [hl] at ran
      have hrun : handle H (.line (copyArgv "load" argv)) (World.init os) = .ok () w₁ := hl
      exact mainLoop_reached (Reached.init.next hrun trivial) ran
  · simp only [session, if_neg hargs, bind] at ran
    exact mainLoop_reached .init ran

end

/-- The loop of `main` calls `exec` with one set word or more on every line exactly when every
line that it comes to is empty or one in which `wordexp` finds a word. -/
theorem prompt_only_words_iff {σ : Type} (H : Host σ)
    (wordexp : String → σ → Option (List String)) (lines : List String) (w : World σ) :
    OnlyWords H wordexp lines w ↔
      Throughout (prompt wordexp (execWords H)) (HasWord wordexp) lines w :=
  ⟨of_onlyWords, onlyWords_of⟩

/-- An empty line between two commands. -/
theorem prompt_only_words_demo :
    OnlyWords (Demo.host Demo.static) Demo.wordexp ["load demo", "", " list"]
      (World.init (Demo.machine (Demo.program Demo.nops))) := by
  apply (prompt_only_words_iff _ _ _ _).mpr
  have hload : HasWord Demo.wordexp (World.init (Demo.machine (Demo.program Demo.nops))) "load demo" :=
    .inr ⟨"load", ["demo"], by decide⟩
  refine ⟨hload, fun w₁ _ => ⟨.inl (by decide), fun w₂ _ => ⟨.inr ⟨"list", [], ?_⟩, fun _ _ => trivial⟩⟩⟩
  show Demo.wordexp " list" w₂.os = some ["list"]
  rw [Demo.wordexp, if_neg (by decide)]
  decide

/-- A line of blanks hands `exec` no word, and a line that `wordexp` rejects hands it whatever
there was in `p`. -/
theorem blank_line_crashes :
    ¬OnlyWords (Demo.host Demo.static) Demo.wordexp ["  "]
        (World.init (Demo.machine (Demo.program Demo.nops))) ∧
      mainLoop Demo.wordexp (execWords (Demo.host Demo.static)) ["  "]
          (World.init (Demo.machine (Demo.program Demo.nops))) =
        .error .crash (World.init (Demo.machine (Demo.program Demo.nops))) ∧
      ¬OnlyWords (Demo.host Demo.static) Demo.wordexp ["si; si"]
        (World.init (Demo.machine (Demo.program Demo.nops))) := by
  have hblank : ¬HasWord Demo.wordexp (World.init (Demo.machine (Demo.program Demo.nops))) "  " := by
    rintro (h | ⟨word, words, h⟩)
    · exact absurd h (by decide)
    · have he : Demo.wordexp "  " (Demo.machine (Demo.program Demo.nops)) = some [] := by decide
      rw [World.init, he] at h
      cases h
  have hsemi : ¬HasWord Demo.wordexp (World.init (Demo.machine (Demo.program Demo.nops))) "si; si" := by
    rintro (h | ⟨word, words, h⟩)
    · exact absurd h (by decide)
    · have he : Demo.wordexp "si; si" (Demo.machine (Demo.program Demo.nops)) = none := by decide
      rw [World.init, he] at h
      cases h
  refine ⟨fun h => hblank (of_onlyWords h).1, ?_, fun h => hsemi (of_onlyWords h).1⟩
  rw [mainLoop_cons, (prompt_crashes hblank).1]

end UnixProgramming.Sdb.Proofs
