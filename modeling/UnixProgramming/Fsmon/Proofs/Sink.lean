import UnixProgramming.Fsmon.Kernel
import UnixProgramming.Fsmon.Proofs.Startup

namespace UnixProgramming.Fsmon.Proofs
open Lib

variable {K : Kernel} {p : Proc} {m m' m₁ m₂ m₃ : Machine Proc} {c : Call} {cs : List Call}
  {v : Value} {depth : Nat} {sink : Option Nat}

/-- The calls that change the table of descriptors. -/
def onTable : Call → Bool
  | .open .. | .creat .. | .close _ | .dup _ | .dup2 .. | .fopen .. | .fclose _ => true
  | _ => false

/-- The open file behind `OUTPUT`. -/
def outputFile (m : Machine Proc) : Option Nat := m.world.fileAt m.OUTPUT

/-- The call does not put another open file behind `OUTPUT`. `fclose` of a stream on `OUTPUT`
moves `OUTPUT` to a copy of descriptor 2, and then closes the old one. -/
def Spares (K : Kernel) (sink : Option Nat) (m : Machine Proc) : Step → Prop
  | .call (.fclose stream) => m.world.filenoOf stream = m.OUTPUT →
    ∀ d f, K.place m.world (.dup 2) = some (d, f) → (d : Int) = m.OUTPUT ∨ some f = sink
  | .call c => ∀ d f, K.place m.world (passed c) = some (d, f) → (d : Int) = m.OUTPUT → some f = sink
  | _ => True

/-- No line goes to another open file than the sink. -/
def Sunk (sink : Option Nat) (m : Machine Proc) : Prop := ∀ f ∈ outputFile m, some f = sink

section Kernel

/-- The calls for the log line other than `dprintf`. -/
def idle : Call → Bool
  | .sprintf .. | .memset .. | .readlink .. | .fileno _ => true
  | _ => false

theorem idle_world (hc : idle c = true) (p : Proc) : (K.libc.real c p).world = p := by
  cases c with
  | sprintf str format args | memset s c n | readlink path buf bufsize => rfl
  | fileno stream =>
    change (K.real (.fileno stream) p).world = p
    unfold Kernel.real
    dsimp only
    split
    · rfl
    · rfl
  | _ => cases hc

theorem idle_after (hcs : ∀ c ∈ cs, idle c = true) (e : Int) :
    (after K.libc (p, e) cs).1 = p := by
  induction cs generalizing e with
  | nil => rfl
  | cons c cs ih =>
    rw [after, List.foldl_cons, idle_world (hcs c List.mem_cons_self), ← after]
    exact ih (fun c hc => hcs c (List.mem_cons_of_mem _ hc)) _

theorem fdCalls_idle (fd : Int) (p : Proc) : ∀ c ∈ fdCalls K.libc fd p, idle c = true := by
  intro c hc
  unfold fdCalls at hc
  split at hc
  · cases hc
  · simp only [List.mem_cons, List.not_mem_nil, or_false] at hc
    rcases hc with rfl | rfl | rfl <;> rfl

theorem streamCalls_idle (stream : Int) (p : Proc) :
    ∀ c ∈ streamCalls K.libc stream p, idle c = true := by
  intro c hc
  rcases List.mem_cons.mp hc with rfl | hc
  · rfl
  · exact fdCalls_idle _ _ c hc

theorem filenoOf_real (stream : Int) (p : Proc) :
    (K.libc.real (.fileno stream) p).ret = p.filenoOf stream := by
  change (K.real (.fileno stream) p).ret = _
  unfold Kernel.real
  dsimp only
  split
  · next h =>
    rw [Option.isNone_iff_eq_none] at h
    simp [Kernel.fail, Proc.filenoOf, h]
  · rfl

/-- `dprintf` writes to the open file of its descriptor. -/
theorem dprintf_world (fd : Int) (format : String) (args : List Arg) (p : Proc) :
    (K.libc.real (.dprintf fd format args) p).world =
      { p with written := p.written ++ (p.fileAt fd).toList } := by
  change (K.real (.dprintf fd format args) p).world = _
  unfold Kernel.real
  dsimp only
  cases h : p.fileAt fd with
  | none => simp [Kernel.fail]
  | some f => rfl

/-- A call that opens or copies puts an open file where `place` says, and nowhere else. -/
theorem place_fileAt (hc : onTable c = true) (hclose : ∀ fd, c ≠ .close fd)
    (hfclose : ∀ s, c ≠ .fclose s) (fd : Int) :
    (K.libc.real c p).world.fileAt fd =
      (K.place p c).elim (p.fileAt fd) fun place =>
        if fd = place.1 then some place.2 else p.fileAt fd := by
  change (K.real c p).world.fileAt fd = _
  unfold Kernel.real
  cases c with
  | «open» path oflag ap | creat path mode | fopen path mode | dup fildes | dup2 fildes fildes2 =>
    dsimp only
    cases K.place p _ with
    | none => rfl
    | some place => exact p.fileAt_put place.1 (some place.2) fd
  | close fd => exact absurd rfl (hclose fd)
  | fclose s => exact absurd rfl (hfclose s)
  | _ => cases hc

theorem closeAt_fileAt (closed fd : Int) :
    (K.closeAt p c closed).world.fileAt fd = if fd = closed then none else p.fileAt fd := by
  unfold Kernel.closeAt
  split
  · next h =>
    rw [Option.isNone_iff_eq_none] at h
    by_cases hfd : fd = closed
    · simp [Kernel.fail, hfd, h]
    · simp [Kernel.fail, hfd]
  · next h =>
    have hpos : 0 ≤ closed := by
      by_contra hneg
      simp [Proc.fileAt, hneg] at h
    rw [p.fileAt_put, Int.toNat_of_nonneg hpos]

theorem fclose_fileAt (stream fd : Int) : (K.libc.real (.fclose stream) p).world.fileAt fd =
    if fd = p.filenoOf stream then none else p.fileAt fd := by
  change (K.real (.fclose stream) p).world.fileAt fd = _
  unfold Kernel.real
  dsimp only
  cases h : p.streams stream with
  | none =>
    by_cases hfd : fd = -1
    · simp [Proc.filenoOf, h, hfd, Proc.fileAt]
    · simp [Kernel.fail, Proc.filenoOf, h, hfd]
  | some closed =>
    have hclosed : p.filenoOf stream = closed := by simp [Proc.filenoOf, h]
    rw [hclosed]
    exact closeAt_fileAt closed fd

theorem dup_ret (fildes : Int) : (K.libc.real (.dup fildes) p).ret =
    (K.place p (.dup fildes)).elim (-1) fun place => (place.1 : Int) := by
  change (K.real (.dup fildes) p).ret = _
  unfold Kernel.real
  dsimp only
  cases K.place p (.dup fildes) with
  | none => rfl
  | some place => rfl

theorem dup_filenoOf (fildes stream : Int) :
    (K.libc.real (.dup fildes) p).world.filenoOf stream = p.filenoOf stream := by
  change (K.real (.dup fildes) p).world.filenoOf stream = _
  unfold Kernel.real
  dsimp only
  cases K.place p (.dup fildes) with
  | none => rfl
  | some place => rfl

/-- Only `dprintf` writes lines. -/
theorem onTable_written (hc : onTable c = true) (p : Proc) :
    (K.libc.real c p).world.written = p.written := by
  have hclose : ∀ c fd, (K.closeAt p c fd).world.written = p.written := by
    intro c fd
    unfold Kernel.closeAt
    split
    · rfl
    · rfl
  change (K.real c p).world.written = _
  unfold Kernel.real
  cases c with
  | «open» path oflag ap | creat path mode | fopen path mode | dup fildes | dup2 fildes fildes2 =>
    dsimp only
    cases K.place p _ with
    | none => rfl
    | some place => rfl
  | close fd => exact hclose _ fd
  | fclose stream =>
    dsimp only
    cases p.streams stream with
    | none => rfl
    | some fd => exact hclose _ fd
  | _ => cases hc

end Kernel

section Steps

theorem passed_onTable (hc : onTable c = true) : onTable (passed c) = true := by
  cases c with
  | «open» | creat | close | dup | dup2 | fopen | fclose => rfl
  | _ => cases hc

theorem asides_onTable (hc : onTable c = true) (r : Reply Proc) : asides K.libc c r = [] := by
  cases c with
  | «open» | creat | close | dup | dup2 | fopen | fclose => rfl
  | _ => cases hc

/-- What `fclose` does before its call: `OUTPUT` moves to a copy of descriptor 2 or stays. -/
theorem closing_cases {stream : Int} (closing : Closing K.libc stream m₁ m₂) :
    (m₁.world.filenoOf stream = m₁.OUTPUT ∧ m₂.world = (K.libc.real (.dup 2) m₁.world).world ∧
      m₂.OUTPUT = (K.libc.real (.dup 2) m₁.world).ret) ∨
    (m₁.world.filenoOf stream ≠ m₁.OUTPUT ∧ m₂.world = m₁.world ∧ m₂.OUTPUT = m₁.OUTPUT) := by
  obtain ⟨m₀, haside, hm₂⟩ := closing
  have hidle : ∀ c ∈ streamCalls K.libc stream m₁.world ++ [.fileno stream], idle c = true := by
    intro c hc
    rcases List.mem_append.mp hc with hc | hc
    · exact streamCalls_idle _ _ c hc
    · obtain rfl := List.mem_singleton.mp hc
      rfl
  have hworld : m₀.world = m₁.world := by rw [haside.world, idle_after hidle]
  rw [idle_after (streamCalls_idle stream m₁.world), filenoOf_real, haside.OUTPUT] at hm₂
  by_cases hon : m₁.world.filenoOf stream = m₁.OUTPUT
  · rw [if_pos hon] at hm₂
    refine .inl ⟨hon, ?_, ?_⟩
    · rw [hm₂, ← hworld]
      rfl
    · rw [hm₂, ← hworld]
  · rw [if_neg hon] at hm₂
    rw [hm₂]
    exact .inr ⟨hon, hworld, haside.OUTPUT⟩

theorem prior_written (hc : onTable c = true) (prior : Prior K.libc c m₁ m₂) :
    m₂.world.written = m₁.world.written := by
  have hnone : Aside K.libc [] m₁ m₂ → m₂.world.written = m₁.world.written :=
    fun haside => congrArg Proc.written haside.world
  cases c with
  | «open» path oflag ap | creat path mode | fopen path mode | dup fildes | dup2 fildes fildes2 =>
    exact hnone prior
  | close fildes =>
    have haside : Aside K.libc (fdCalls K.libc fildes m₁.world) m₁ m₂ := prior
    rw [haside.world, idle_after (fdCalls_idle fildes m₁.world)]
  | fclose stream =>
    rcases closing_cases prior with ⟨-, hworld, -⟩ | ⟨-, hworld, -⟩
    · rw [hworld, onTable_written rfl]
    · rw [hworld]
  | _ => cases hc

/-- The line of a call goes to what `OUTPUT` is on after the call. -/
theorem serves_written (hm : Loaded m) (hc : onTable c = true) (h : Serves K.libc m c v m') :
    m'.world.written = m.world.written ++ (outputFile m').toList ∧
      ∃ m₁ m₂, m₁.world = m.world ∧ m₁.OUTPUT = m.OUTPUT ∧ Prior K.libc c m₁ m₂ ∧
        outputFile m' = (K.libc.real (passed c) m₂.world).world.fileAt m₂.OUTPUT := by
  cases h with
  | @mk m₁ m₂ m₃ format args ready prior keeps aside =>
    have hlibc : m.libc ≠ none := by simp [hm.libc]
    have hworld₁ : m₁.world = m.world := by rw [ready.world, begun, if_neg hlibc]
    rw [asides_onTable hc] at aside
    have hworld₃ : m₃.world = (K.libc.real (passed c) m₂.world).world := aside.world
    have hOUTPUT₃ : m₃.OUTPUT = m₂.OUTPUT := aside.OUTPUT
    have hlog : (logged K.libc m₃ format args).world =
        { m₃.world with written := m₃.world.written ++ (m₃.world.fileAt m₃.OUTPUT).toList } :=
      dprintf_world _ _ _ _
    have hfile : outputFile (logged K.libc m₃ format args) = m₃.world.fileAt m₃.OUTPUT := by
      unfold outputFile
      rw [hlog]
      rfl
    refine ⟨?_, m₁, m₂, hworld₁, ready.kept hlibc, prior, ?_⟩
    · rw [hfile, hlog, hworld₃, onTable_written (passed_onTable hc), prior_written hc prior,
        hworld₁]
    · rw [hfile, hworld₃, hOUTPUT₃]

/-- Behind `OUTPUT` after a call that opens or copies. -/
theorem serves_placed (hm : Loaded m) (hc : onTable c = true) (hclose : ∀ fd, c ≠ .close fd)
    (hfclose : ∀ s, c ≠ .fclose s) (h : Serves K.libc m c v m') :
    outputFile m' = (K.place m.world (passed c)).elim (outputFile m) fun place =>
      if m.OUTPUT = place.1 then some place.2 else outputFile m := by
  obtain ⟨-, m₁, m₂, hworld, hOUTPUT, prior, hfile⟩ := serves_written hm hc h
  have hplaced : (∀ fd, passed c ≠ .close fd) → (∀ s, passed c ≠ .fclose s) →
      Aside K.libc [] m₁ m₂ → outputFile m' =
        (K.place m.world (passed c)).elim (outputFile m) fun place =>
          if m.OUTPUT = place.1 then some place.2 else outputFile m := by
    intro hclose hfclose haside
    have hworld₂ : m₂.world = m.world := haside.world.trans hworld
    rw [hfile, place_fileAt (passed_onTable hc) hclose hfclose, hworld₂, haside.OUTPUT, hOUTPUT]
    rfl
  cases c with
  | «open» path oflag ap | creat path mode | fopen path mode | dup fildes | dup2 fildes fildes2 =>
    exact hplaced (fun _ => by simp [passed]) (fun _ => by simp [passed]) prior
  | close fildes => exact absurd rfl (hclose fildes)
  | fclose stream => exact absurd rfl (hfclose stream)
  | _ => cases hc

/-- Behind `OUTPUT` after `close`. -/
theorem serves_close {fildes : Int} (hm : Loaded m) (h : Serves K.libc m (.close fildes) v m') :
    outputFile m' = if m.OUTPUT = fildes then none else outputFile m := by
  obtain ⟨-, m₁, m₂, hworld, hOUTPUT, prior, hfile⟩ := serves_written hm rfl h
  have haside : Aside K.libc (fdCalls K.libc fildes m₁.world) m₁ m₂ := prior
  have hworld₂ : m₂.world = m.world := by
    rw [haside.world, idle_after (fdCalls_idle fildes m₁.world), hworld]
  rw [hfile, hworld₂, haside.OUTPUT, hOUTPUT]
  exact closeAt_fileAt fildes m.OUTPUT

/-- Behind `OUTPUT` after `fclose`: what its copy of descriptor 2 is on, unless the copy has
taken the number that is then closed. -/
theorem serves_fclose {stream : Int} (hm : Loaded m) (h : Serves K.libc m (.fclose stream) v m') :
    outputFile m' = if m.world.filenoOf stream = m.OUTPUT then
        (K.place m.world (.dup 2)).elim none fun place =>
          if place.1 = m.OUTPUT then none else some place.2
      else outputFile m := by
  obtain ⟨-, m₁, m₂, hworld, hOUTPUT, prior, hfile⟩ := serves_written hm rfl h
  have hclosed : outputFile m' =
      if m₂.OUTPUT = m₂.world.filenoOf stream then none else m₂.world.fileAt m₂.OUTPUT := by
    rw [hfile]
    exact fclose_fileAt stream m₂.OUTPUT
  rcases closing_cases prior with ⟨hon, hworld₂, hOUTPUT₂⟩ | ⟨hon, hworld₂, hOUTPUT₂⟩
  · rw [hworld, hOUTPUT] at hon
    rw [hworld] at hworld₂ hOUTPUT₂
    rw [hclosed, hworld₂, hOUTPUT₂, dup_ret, dup_filenoOf, hon, if_pos rfl,
      place_fileAt rfl (fun _ => by simp) (fun _ => by simp)]
    cases hplace : K.place m.world (.dup 2) with
    | none => exact ite_self none
    | some place => simp
  · rw [hworld, hOUTPUT] at hon
    rw [hclosed, hworld₂, hOUTPUT₂, hworld, hOUTPUT, if_neg (fun h => hon h.symm), if_neg hon]
    rfl

theorem sunk_place (hs : Sunk sink m) (hfile : outputFile m' =
    (K.place m.world c).elim (outputFile m) fun place =>
      if m.OUTPUT = place.1 then some place.2 else outputFile m) :
    Sunk sink m' ↔
      ∀ d f, K.place m.world c = some (d, f) → (d : Int) = m.OUTPUT → some f = sink := by
  unfold Sunk at hs ⊢
  rw [hfile]
  cases hplace : K.place m.world c with
  | none =>
    refine ⟨fun _ d f h => ?_, fun _ => hs⟩
    cases h
  | some place =>
    obtain ⟨d, f⟩ := place
    rw [Option.elim_some]
    by_cases hd : m.OUTPUT = d
    · rw [if_pos hd]
      refine ⟨fun h d' f' he _ => ?_, fun h f' hf => ?_⟩
      · cases he
        exact h _ rfl
      · cases hf
        exact h _ _ rfl hd.symm
    · rw [if_neg hd]
      refine ⟨fun _ d' f' he hd' => ?_, fun _ => hs⟩
      cases he
      exact absurd hd'.symm hd

theorem sunk_fclose {stream : Int} (hs : Sunk sink m) (hfile : outputFile m' =
    if m.world.filenoOf stream = m.OUTPUT then
      (K.place m.world (.dup 2)).elim none fun place =>
        if place.1 = m.OUTPUT then none else some place.2
    else outputFile m) :
    Sunk sink m' ↔ Spares K sink m (.call (.fclose stream)) := by
  unfold Sunk at hs ⊢
  rw [hfile, Spares]
  by_cases hon : m.world.filenoOf stream = m.OUTPUT
  · simp only [hon, if_true, forall_const]
    cases hplace : K.place m.world (.dup 2) with
    | none => simp
    | some place =>
      obtain ⟨d, f⟩ := place
      rw [Option.elim_some]
      by_cases hd : (d : Int) = m.OUTPUT
      · rw [if_pos hd]
        refine ⟨fun _ d' f' he => ?_, fun _ f' hf => ?_⟩
        · cases he
          exact .inl hd
        · cases hf
      · rw [if_neg hd]
        refine ⟨fun h d' f' he => ?_, fun h f' hf => ?_⟩
        · cases he
          exact .inr (h _ rfl)
        · cases hf
          exact (h _ _ rfl).resolve_left hd
  · simp only [hon, if_false, false_implies, iff_true]
    exact hs

/-- A step keeps the lines in the sink exactly if it spares it. -/
theorem serves_sunk (hm : Loaded m) (hs : Sunk sink m) (hc : onTable c = true)
    (h : Serves K.libc m c v m') : Sunk sink m' ↔ Spares K sink m (.call c) := by
  cases c with
  | «open» path oflag ap | creat path mode | fopen path mode | dup fildes | dup2 fildes fildes2 =>
    exact sunk_place hs (serves_placed hm rfl (fun _ => by simp) (fun _ => by simp) h)
  | close fildes =>
    refine ⟨fun _ d f hplace => ?_, fun _ f hf => ?_⟩
    · cases hplace
    · rw [serves_close hm h] at hf
      split at hf
      · cases hf
      · exact hs f hf
  | fclose stream => exact sunk_fclose hs (serves_fclose hm h)
  | _ => cases hc

theorem step_serves (depth : Nat) (hm : Loaded m) (hc : onTable c = true) :
    ∃ v m', step K.libc (depth + 1) (.call c) m = .ok () m' ∧ Serves K.libc m c v m' := by
  have hown : c.name.own = true := by cases c <;> first | rfl | cases hc
  have hprints : ∀ w, Prints K.libc w c := by
    intro w
    cases c with
    | «open» | creat | close | dup | dup2 | fopen | fclose => trivial
    | _ => cases hc
  have hlibc : m.libc ≠ none := by simp [hm.libc]
  have hgood : Good K.libc c m (wrapper K.libc (invoke K.libc depth) c) :=
    good_wrapper (.inr hm) hown fun _ => hlibc
  obtain ⟨v, m', hok, hserves, -⟩ := Wp.returns (hgood.mono (fun _ _ h => h)
    (fun _ _ he => he (hprints _))) fun _ _ he => he
  have hinvoke : invoke K.libc (depth + 1) c m = .ok v m' := hok
  exact ⟨v, m', by simp [step, bind, EStateM.bind, hinvoke, pure, EStateM.pure], hserves⟩

end Steps

section Runs

/-- The machine after some calls of the program. -/
def runCalls (K : Kernel) (depth : Nat) (calls : List Call) (m : Machine Proc) :
    Option (Machine Proc) :=
  runAll (step K.libc depth) (fun _ _ _ => true) (calls.map .call) m

theorem runCalls_cons (hstep : step K.libc depth (.call c) m = .ok () m') :
    runCalls K depth (c :: cs) m = runCalls K depth cs m' := by
  simp [runCalls, runAll, hstep]

/-- A run comes to its end, and what has been logged stays. -/
theorem run_written (depth : Nat) (hm : Loaded m) (hcs : ∀ c ∈ cs, onTable c = true) :
    ∃ m', runCalls K (depth + 1) cs m = some m' ∧ m.world.written <+: m'.world.written := by
  induction cs generalizing m with
  | nil => exact ⟨m, rfl, List.prefix_refl _⟩
  | cons c cs ih =>
    obtain ⟨v, m₁, hstep, hserves⟩ := step_serves depth hm (hcs c List.mem_cons_self)
    obtain ⟨m', hrun, hprefix⟩ := ih hserves.loaded fun c hc => hcs c (List.mem_cons_of_mem _ hc)
    obtain ⟨hwritten, -⟩ := serves_written hm (hcs c List.mem_cons_self) hserves
    refine ⟨m', by rw [runCalls_cons hstep, hrun], ?_⟩
    rw [hwritten] at hprefix
    exact (List.prefix_append _ _).trans hprefix

/-- In a run from where the lines go to the sink, they all do if and only if each call spares it. -/
theorem run_sunk (hm : Loaded m) (hs : Sunk sink m) (hcs : ∀ c ∈ cs, onTable c = true)
    (before : ∀ f ∈ m.world.written, some f = sink) (hrun : runCalls K (depth + 1) cs m = some m') :
    (∀ f ∈ m'.world.written, some f = sink) ↔
      Throughout (step K.libc (depth + 1)) (Spares K sink) (cs.map .call) m := by
  induction cs generalizing m with
  | nil =>
    cases hrun
    exact iff_of_true before trivial
  | cons c cs ih =>
    have hc := hcs c List.mem_cons_self
    have hrest : ∀ c ∈ cs, onTable c = true := fun c hc => hcs c (List.mem_cons_of_mem _ hc)
    obtain ⟨v, m₁, hstep, hserves⟩ := step_serves depth hm hc
    obtain ⟨hwritten, -⟩ := serves_written hm hc hserves
    have hsunk := serves_sunk hm hs hc hserves
    rw [runCalls_cons hstep] at hrun
    rw [List.map_cons, Throughout, ← hsunk]
    by_cases hs₁ : Sunk sink m₁
    · have hbefore : ∀ f ∈ m₁.world.written, some f = sink := by
        intro f hf
        rw [hwritten] at hf
        rcases List.mem_append.mp hf with hf | hf
        · exact before f hf
        · exact hs₁ f (Option.mem_toList.mp hf)
      rw [ih hserves.loaded hs₁ hrest hbefore hrun]
      refine ⟨fun h => ⟨hs₁, fun m₂ hm₂ => ?_⟩, fun h => h.2 m₁ hstep⟩
      rw [hstep] at hm₂
      cases hm₂
      exact h
    · -- the line of this call is in another file, and stays there
      refine iff_of_false (fun hall => hs₁ fun f hf => hall f ?_) fun h => hs₁ h.1
      obtain ⟨m₂, hrun₂, hprefix⟩ := run_written (K := K) depth hserves.loaded hrest
      rw [hrun] at hrun₂
      cases hrun₂
      refine hprefix.subset ?_
      rw [hwritten]
      exact List.mem_append_right _ (Option.mem_toList.mpr hf)

/-- `initialize` logs nothing. -/
theorem init_loaded (K : Kernel) (depth : Nat) (p : Proc) (errno : Int) : ∃ m₀,
    step K.libc (depth + 1) .init (start { p with written := [] } errno) = .ok () m₀ ∧
      Loaded m₀ ∧ m₀.world.written = [] := by
  have hinit : Wp (init K.libc (invoke K.libc (depth + 1)))
      (fun _ m' => Ready K.libc (start { p with written := [] } errno) m') (fun _ _ => False)
      (start { p with written := [] } errno) := wp_init (settled_start _ _)
  obtain ⟨u, m₀, hok, hready⟩ := hinit.returns fun _ _ he => he
  refine ⟨m₀, hok, hready.loaded, ?_⟩
  have hbegun : begun K.libc (start { p with written := [] } errno) =
      (K.libc.real (outputCall K.libc { p with written := [] }) { p with written := [] }).world := rfl
  rw [hready.world, hbegun]
  unfold outputCall
  split
  · exact onTable_written rfl _
  · rw [idle_world rfl]

end Runs

/-- In every run of calls on descriptors from `initialize` on, every line is written to the open
file that `OUTPUT` is on then, if and only if each call spares it. -/
theorem monitor_sink_iff (K : Kernel) (p : Proc) (errno : Int) (depth : Nat) (calls : List Call)
    (hcalls : ∀ c ∈ calls, onTable c = true) : ∃ m₀ m,
    step K.libc (depth + 1) .init (start { p with written := [] } errno) = .ok () m₀ ∧
    runCalls K (depth + 1) calls m₀ = some m ∧
    ((∀ f ∈ m.world.written, some f = outputFile m₀) ↔
      Throughout (step K.libc (depth + 1)) (Spares K (outputFile m₀)) (calls.map .call) m₀) := by
  obtain ⟨m₀, hinit, hm₀, hnone⟩ := init_loaded K depth p errno
  obtain ⟨m, hrun, -⟩ := run_written (K := K) depth hm₀ hcalls
  refine ⟨m₀, m, hinit, hrun, run_sunk hm₀ (fun f hf => hf.symm) hcalls ?_ hrun⟩
  rw [hnone]
  intro f hf
  cases hf

section Keeping

/-- The program does not close `OUTPUT`, nor put another file there on purpose. -/
def Avoids (m : Machine Proc) : Step → Prop
  | .call (.close fildes) => fildes ≠ m.OUTPUT
  | .call (.dup2 _ fildes2) => fildes2 ≠ m.OUTPUT
  | .call (.fclose stream) => m.world.filenoOf stream ≠ m.OUTPUT
  | _ => True

theorem lowest_free {d : Nat} (h : p.lowest = some d) : p.table d = none := by
  have hd := List.find?_some h
  simpa using hd

/-- A descriptor that is in use is not the one that a call takes. -/
theorem place_free {d f : Nat} (hdup2 : ∀ a b, c ≠ .dup2 a b) (h : K.place p c = some (d, f)) :
    p.fileAt d = none := by
  have hmap : ∀ g, (p.lowest.map fun d => (d, g)) = some (d, f) → p.fileAt d = none := by
    intro g hg
    obtain ⟨k, hk, he⟩ := Option.map_eq_some_iff.mp hg
    cases he
    simpa [Proc.fileAt] using lowest_free hk
  cases c with
  | «open» path oflag ap | creat path mode | fopen path mode =>
    simp only [Kernel.place] at h
    split at h
    · cases h
    · exact hmap _ h
  | dup fildes =>
    simp only [Kernel.place] at h
    split at h
    · cases h
    · exact hmap _ h
  | dup2 a b => exact absurd rfl (hdup2 a b)
  | _ => cases h

/-- A call that keeps away from `OUTPUT` leaves it where it is. -/
theorem avoids_keeps {f : Nat} (hm : Loaded m) (hf : outputFile m = some f)
    (hc : onTable c = true) (avoids : Avoids m (.call c)) (h : Serves K.libc m c v m') :
    outputFile m' = some f := by
  have hkept : (∀ fd, c ≠ .close fd) → (∀ s, c ≠ .fclose s) →
      (∀ d g, K.place m.world (passed c) = some (d, g) → m.OUTPUT ≠ d) →
      outputFile m' = some f := by
    intro hclose hfclose hother
    rw [serves_placed hm hc hclose hfclose h]
    cases hplace : K.place m.world (passed c) with
    | none => exact hf
    | some place => exact (if_neg (hother place.1 place.2 hplace)).trans hf
  have hused : (∀ a b, passed c ≠ .dup2 a b) →
      ∀ d g, K.place m.world (passed c) = some (d, g) → m.OUTPUT ≠ d := by
    intro hdup2 d g hplace hd
    have hnone := place_free hdup2 hplace
    rw [← hd] at hnone
    exact absurd (hf.symm.trans hnone) (by simp)
  cases c with
  | «open» path oflag ap | creat path mode | fopen path mode | dup fildes =>
    exact hkept (fun _ => by simp) (fun _ => by simp) (hused fun _ _ => by simp [passed])
  | dup2 fildes fildes2 =>
    refine hkept (fun _ => by simp) (fun _ => by simp) ?_
    intro d g hplace hd
    simp only [passed, Kernel.place] at hplace
    split at hplace
    · cases hplace
    · split at hplace
      · next hrange =>
        cases hplace
        rw [Int.toNat_of_nonneg hrange.1] at hd
        exact avoids hd.symm
      · cases hplace
  | close fildes => rw [serves_close hm h, if_neg (fun h => avoids h.symm), hf]
  | fclose stream => rw [serves_fclose hm h, if_neg avoids, hf]
  | _ => cases hc

/-- So with a sink that is the monitor's own, a program that does not touch the sink's descriptor
never gets a line into a file of its own. -/
theorem run_private {f : Nat} (hm : Loaded m) (hf : outputFile m = some f)
    (hcs : ∀ c ∈ cs, onTable c = true)
    (avoids : Throughout (step K.libc (depth + 1)) Avoids (cs.map .call) m) :
    Throughout (step K.libc (depth + 1)) (Spares K (some f)) (cs.map .call) m := by
  induction cs generalizing m with
  | nil => trivial
  | cons c cs ih =>
    obtain ⟨havoids, hrest⟩ := avoids
    have hc := hcs c List.mem_cons_self
    obtain ⟨v, m₁, hstep, hserves⟩ := step_serves depth hm hc
    have hf₁ := avoids_keeps hm hf hc havoids hserves
    have hsunk : ∀ {m : Machine Proc}, outputFile m = some f → Sunk (some f) m := by
      intro m hm g hg
      rw [hm] at hg
      exact hg.symm
    refine ⟨(serves_sunk hm (hsunk hf) hc hserves).mp (hsunk hf₁), fun m₂ hm₂ => ?_⟩
    rw [hstep] at hm₂
    cases hm₂
    exact ih hserves.loaded hf₁ (fun c hc => hcs c (List.mem_cons_of_mem _ hc)) (hrest m₁ hstep)

end Keeping

section Demo

/-- A process with the standard descriptors and streams, and nothing in its environment. -/
def demoProc : Proc where
  table d := if d < 3 then some d else none
  limit := 8
  opened := 3
  streams s := if 1 ≤ s ∧ s ≤ 3 then some (s - 1) else none
  nextStream := 10
  monitorOutput := none
  written := []

/-- A kernel that opens every path. -/
def demoKernel : Kernel where
  refuses _ _ := false
  error _ _ := 9
  stat _ _ := (0, 0)
  string _ _ := some ""
  other _ _ := (0, "", none)

end Demo

theorem monitor_sink_demo : ∃ m₀ m,
    step demoKernel.libc 1 .init (start { demoProc with written := [] } 0) = .ok () m₀ ∧
    runCalls demoKernel 1 [.creat "a" 0o644, .dup2 3 1] m₀ = some m ∧
    ∀ f ∈ m.world.written, some f = outputFile m₀ := by
  obtain ⟨m₀, m, hinit, hrun, hsink⟩ :=
    monitor_sink_iff demoKernel demoProc 0 0 [.creat "a" 0o644, .dup2 3 1] (by simp [onTable])
  refine ⟨m₀, m, hinit, hrun, hsink.mpr ?_⟩
  cases hinit
  refine ⟨fun d f hplace hd => ?_, fun m₁ h₁ => ?_⟩
  · cases hplace
    cases hd
  · cases h₁
    refine ⟨fun d f hplace hd => ?_, fun _ _ => trivial⟩
    cases hplace
    cases hd

/-- The program closes its stderr and opens a file, which gets descriptor 2 and the line. -/
theorem line_in_data : ∃ m₀ m,
    step demoKernel.libc 1 .init (start { demoProc with written := [] } 0) = .ok () m₀ ∧
    runCalls demoKernel 1 [.close 2, .open "data" 65 [0o644]] m₀ = some m ∧
    outputFile m₀ = some 2 ∧ m.world.fileAt 2 = some 3 ∧ m.world.written = [3] :=
  ⟨_, _, rfl, rfl, rfl, rfl, rfl⟩

end UnixProgramming.Fsmon.Proofs
