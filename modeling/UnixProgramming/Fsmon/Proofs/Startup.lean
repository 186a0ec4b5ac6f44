import UnixProgramming.Fsmon.Proofs.Wrappers

namespace UnixProgramming.Fsmon.Proofs
open Lib

variable {W : Type} {L : Libc W} {self : Call → M W Value} {m m' m₁ : Machine W}
  {E : Fault → Machine W → Prop} {c : Call} {v : Value} {depth : Nat} {s : Step} {w : W}
  {errno : Int}

/-- The call went to libc once, and its line to the log. -/
def Traced (c : Call) (m : Machine W) (v : Value) (m' : Machine W) : Prop :=
  ∃ errno fd format args, m'.trace =
    m.trace ++ [.forward (target c) (passed c) v.ret errno, .log fd format args]

theorem Loaded.logged (h : Loaded m) (format : String) (args : List Arg) :
    Loaded (logged L m format args) :=
  ⟨h.libc, h.util, h.cached, h.tooled⟩

theorem Serves.loaded (h : Serves L m c v m') : Loaded m' := by
  cases h with
  | mk format args ready prior keeps aside => exact (aside.loaded keeps.loaded.forwarded).logged _ _

theorem logged_trace {m₂ m₃ : Machine W} {cs : List Call} (format : String) (args : List Arg)
    (ready : Ready L m m₁) (keeps : Keeps m₁ m₂)
    (aside : Aside L cs (forwarded L m₂ (target c) (passed c)) m₃) :
    (logged L m₃ format args).trace = m.trace ++
      [.forward (target c) (passed c) (L.real (passed c) m₂.world).ret (m₂.called L (passed c)).errno,
        .log m₃.OUTPUT format args] := by
  have hlog : (logged L m₃ format args).trace = m₃.trace ++ [.log m₃.OUTPUT format args] := rfl
  have hforward : (forwarded L m₂ (target c) (passed c)).trace = m₂.trace ++
      [.forward (target c) (passed c) (L.real (passed c) m₂.world).ret
        (m₂.called L (passed c)).errno] := rfl
  rw [hlog, aside.trace, hforward, keeps.trace, ready.trace, List.append_assoc]
  rfl

theorem Serves.traced (h : Serves L m c v m') : Traced c m v m' := by
  cases h with
  | mk format args ready prior keeps aside =>
    exact ⟨_, _, format, args, logged_trace format args ready keeps aside⟩

section Early

/-- Before `initialize` a call through a pointer of fsmon.c goes to `NULL`. -/
theorem wp_dprintfUtil_blank {Q : Unit → Machine W → Prop} (h : m.util .dprintf = none)
    (format : String) (args : List Arg) :
    Wp (dprintfUtil L self format args) Q (fun e _ => e = .null) m := by
  simp [dprintfUtil, callUtil, callPtr, Call.name, h]

theorem Good.early {Q : Value → Machine W → Prop} {stream : Int} {line : String}
    {args : String → Value → List Arg} {n : Name} {c' : Call} (hm : Blank m)
    (hlibc : n.own = false) :
    Wp (do
      resolve n
      let ret ← forward L self ((← get).cached n) c'
      let name ← stream2name L self stream
      dprintfUtil L self line (args name ret)
      return ret) Q (fun e _ => e = .null) m := by
  unfold resolve
  rw [wp_bind, wp_modify, hm.cached n, Option.isNone_none, if_pos rfl, hm.libc, wp_bind, wp_get]
  have hptr : store m.cached n (dlsym none n) n = some (.libc n) := by simp [dlsym, hlibc]
  rw [wp_bind, wp_forward hptr, wp_bind]
  refine (wp_stream2name (by exact hm.tooled) stream).mono ?_ fun _ _ he => he
  intro name m₃ haside
  have hutil : m₃.util .dprintf = none := by
    rw [haside.util]
    exact hm.util _
  rw [wp_bind]
  exact wp_dprintfUtil_blank hutil _ _

/-- Before `initialize` the library's own `open` is the one that `dlsym` finds. -/
def Inside (m : Machine W) : Prop :=
  m.libc = none ∧ (m.cached .open = none ∨ m.cached .open = some (.own .open))

theorem wp_resolve_open {Q : Unit → Machine W → Prop} (h : Inside m)
    (run : ∀ m', Inside m' → m'.cached .open = some (.own .open) → Q () m') :
    Wp (resolve .open) Q E m := by
  unfold resolve
  rw [wp_modify]
  rcases h with ⟨hlibc, hnone | hown⟩
  · rw [hnone, Option.isNone_none, if_pos rfl]
    have hptr : store m.cached .open (dlsym m.libc .open) .open = some (.own .open) := by
      rw [hlibc]
      rfl
    exact run _ ⟨hlibc, .inr hptr⟩ hptr
  · rw [hown, Option.isNone_some, if_neg (by simp)]
    exact run m ⟨hlibc, .inr hown⟩ hown

/-- It then calls itself until the stack is used up. -/
theorem wp_open_inside {Q : Value → Machine W → Prop} (h : Inside m) (path : String) (oflag : Nat)
    (ap : List Int) : Wp (invoke L depth (.open path oflag ap)) Q (fun e _ => e = .stack) m := by
  induction depth generalizing m ap Q with
  | zero => exact (rfl : Fault.stack = .stack)
  | succ depth ih =>
    unfold invoke wrapper «open»
    rw [wp_bind]
    refine wp_resolve_open h fun m' h' hptr => ?_
    rw [wp_ite]
    refine ⟨fun _ => ?_, fun _ => ?_⟩
    · dsimp only
      rw [wp_bind, wp_get, wp_bind, hptr]
      exact ih h' _
    · rw [wp_bind, wp_get, wp_bind, hptr]
      exact ih h' _

/-- A wrapper that is written out by hand does not return before `initialize` has run. -/
theorem early_fails (hm : Blank m) (hand : handWritten c = true) (v : Value) (m' : Machine W) :
    invoke L (depth + 1) c m ≠ .ok v m' := by
  have hfails : ∃ fault, Wp (invoke L (depth + 1) c) (fun _ _ => False) (fun e _ => e = fault) m := by
    cases c with
    | fscanf stream format ap => exact ⟨.null, Good.early hm rfl⟩
    | fprintf stream format ap => exact ⟨.null, Good.early hm rfl⟩
    | «open» path oflag ap =>
      exact ⟨.stack, wp_open_inside ⟨hm.libc, .inl (hm.cached .open)⟩ path oflag ap⟩
    | _ => cases hand
  obtain ⟨fault, hwp⟩ := hfails
  intro hok
  exact hwp.ok hok

end Early

section Invariant

/-- What holds between the calls of the program. -/
def Settled (m : Machine W) : Prop := Blank m ∨ Loaded m

theorem settled_start (w : W) (errno : Int) : Settled (start w errno) :=
  .inl ⟨rfl, fun _ => rfl, fun _ => rfl, .inl ⟨rfl, fun _ => rfl⟩⟩

theorem Aside.settled {cs : List Call} (h : Aside L cs m m') (hm : Settled m) : Settled m' := by
  rcases hm with hb | hl
  · refine .inl ⟨h.libc.trans hb.libc, ?_, ?_, h.tooled⟩
    · rw [h.util]
      exact hb.util
    · rw [h.cached]
      exact hb.cached
  · exact .inr (h.loaded hl)

theorem Settled.tooled (h : Settled m) : Tooled m := h.elim Blank.tooled Loaded.tooled

theorem returns_begun (hm : Settled m) (hok : invoke L (depth + 1) c m = .ok v m')
    (hand : handWritten c = true) : m.libc ≠ none := by
  intro hnone
  rcases hm with hb | hl
  · exact early_fails hb hand v m' hok
  · rw [hl.libc] at hnone
    cases hnone

/-- A call returns as it should exactly if `initialize` has run or its wrapper sees to that, and
no `NULL` is in the way of its line. -/
theorem served_iff (L : Libc W) (depth : Nat) (hm : Settled m) (own : c.name.own = true) :
    (∃ v m', invoke L (depth + 1) c m = .ok v m' ∧ Traced c m v m') ↔
      (handWritten c = true → m.libc ≠ none) ∧ Prints L (begun L m) c := by
  constructor
  · intro h
    obtain ⟨v, m', hok, -⟩ := h
    have hand := returns_begun hm hok
    have hgood : Good L c m (wrapper L (invoke L depth) c) := good_wrapper hm own hand
    exact ⟨hand, (Wp.ok hgood hok).2⟩
  · intro h
    obtain ⟨hand, hprints⟩ := h
    have hgood : Good L c m (wrapper L (invoke L depth) c) := good_wrapper hm own hand
    obtain ⟨v, m', hok, hserves, -⟩ := Wp.returns (hgood.mono (fun _ _ h => h)
      (fun _ _ he => he hprints)) fun _ _ he => he
    exact ⟨v, m', hok, hserves.traced⟩

theorem invoke_settled (hm : Settled m) (hok : invoke L (depth + 1) c m = .ok v m') :
    Settled m' := by
  cases hown : c.name.own with
  | true =>
    have hgood : Good L c m (wrapper L (invoke L depth) c) :=
      good_wrapper hm hown (returns_begun hm hok)
    exact .inr (Wp.ok hgood hok).1.loaded
  | false =>
    have hcall : invoke L (depth + 1) c = libcCall L c := by
      cases c <;> first | rfl | cases hown
    rw [hcall] at hok
    cases hok
    exact (Aside.called hm.tooled c).settled hm

/-- One step keeps the invariant. -/
theorem step_settled (hm : Settled m) (hok : step L (depth + 1) s m = .ok () m') : Settled m' := by
  cases s with
  | init => exact .inr (Wp.ok (wp_init (E := fun _ _ => True) hm) hok).loaded
  | loadLibc =>
    exact (Wp.ok (wp_loadLibc (E := fun _ _ => True) L hm.tooled) hok).1.settled hm
  | call c =>
    cases hcall : invoke L (depth + 1) c m with
    | ok v m₁ =>
      have hstep : step L (depth + 1) (.call c) m = .ok () m₁ := by
        simp [step, bind, EStateM.bind, hcall, pure, EStateM.pure]
      rw [hstep] at hok
      cases hok
      exact invoke_settled hm hcall
    | error e m₁ =>
      have hstep : step L (depth + 1) (.call c) m = .error e m₁ := by
        simp [step, bind, EStateM.bind, hcall]
      rw [hstep] at hok
      cases hok

/-- Every run keeps it. -/
theorem reached_settled
    (h : Reached (step L (depth + 1)) (fun _ _ _ => True) (start w errno) m) : Settled m :=
  h.invariant (settled_start w errno) fun _ _ _ _ hs _ hok => step_settled hs hok

end Invariant

section Orders

/-- The step ends, and a call goes to libc once and to the log. -/
def Answered (L : Libc W) (depth : Nat) (m : Machine W) : Step → Prop
  | .call c => ∃ v m', invoke L depth c m = .ok v m' ∧ Traced c m v m'
  | s => ∃ m', step L depth s m = .ok () m'

/-- A wrapper without the first lines of `FUNC` is not called before `initialize` has run, and no
call prints what lies behind `NULL`. -/
def Fit (L : Libc W) (m : Machine W) : Step → Prop
  | .call c => (handWritten c = true → m.libc ≠ none) ∧ Prints L (begun L m) c
  | _ => True

theorem answered_iff (hm : Settled m) (own : ∀ c, s = .call c → c.name.own = true) :
    Answered L (depth + 1) m s ↔ Fit L m s := by
  cases s with
  | init =>
    have hinit : Wp (init L (invoke L (depth + 1))) (fun _ m' => Ready L m m')
        (fun _ _ => False) m := wp_init hm
    obtain ⟨u, m', hok, -⟩ := hinit.returns fun _ _ he => he
    exact ⟨fun _ => trivial, fun _ => ⟨m', hok⟩⟩
  | loadLibc =>
    obtain ⟨u, m', hok, -⟩ := (wp_loadLibc (E := fun _ _ => False) L hm.tooled).returns
      fun _ _ he => he
    exact ⟨fun _ => trivial, fun _ => ⟨m', hok⟩⟩
  | call c => exact served_iff L depth hm (own c rfl)

end Orders

/-- In every order of the constructors and of calls of the library's functions, whatever libc
does, each of them is answered if and only if each is fit to be. -/
theorem interposition_iff (L : Libc W) (w : W) (errno : Int) (depth : Nat) (order : List Step)
    (own : ∀ c, .call c ∈ order → c.name.own = true) :
    Throughout (step L (depth + 1)) (Answered L (depth + 1)) order (start w errno) ↔
      Throughout (step L (depth + 1)) (Fit L) order (start w errno) := by
  refine throughout_congr (fun _ _ _ => step_settled) (fun m hm s hs => ?_) (settled_start w errno)
  refine answered_iff hm fun c hc => own c ?_
  rw [← hc]
  exact hs

section Demo

/-- A libc with no files, no descriptors but 0, 1 and 2 and no users. -/
def bareReal : Call → Unit → Reply Unit
  | .open .., w | .readlink .., w => ⟨-1, "", some 2, w⟩
  | .opendir _, w => ⟨0, "", some 2, w⟩
  | .read .., w => ⟨-1, "", some 9, w⟩
  | .fileno _, w => ⟨2, "", none, w⟩
  | _, w => ⟨0, "", none, w⟩

def bareLibc : Libc Unit where
  real := bareReal
  getenv _ _ := none
  stMode _ _ := 0
  stSize _ _ := 0
  string _ _ := some ""
  stderr := 1
  path := 2
  name := 3

end Demo

/-- A constructor that only calls what `FUNC` has made, and `open` after it. -/
theorem interposition_demo : Throughout (step bareLibc 1) (Answered bareLibc 1)
    [.loadLibc, .call (.readlink "link" 100 4), .call (.open "data" 0 []), .init] (start () 0) := by
  refine (interposition_iff bareLibc () 0 0 _ ?_).mpr ?_
  · intro c hc
    simp only [List.mem_cons, reduceCtorEq, Step.call.injEq, List.not_mem_nil, or_false,
      false_or] at hc
    obtain rfl | rfl := hc <;> rfl
  · refine ⟨trivial, fun m₁ h₁ => ?_⟩
    cases h₁
    refine ⟨⟨nofun, rfl⟩, fun m₂ h₂ => ?_⟩
    cases h₂
    exact ⟨⟨nofun, trivial⟩, fun _ _ => ⟨trivial, fun _ _ => trivial⟩⟩

/-- A constructor that opens a file before `init` has run uses up any stack, and one that scans
a stream calls through `NULL`. -/
theorem early_constructor :
    (¬∃ depth, Throughout (step bareLibc depth) (Answered bareLibc depth)
      [.call (.open "data" 0 []), .init] (start () 0)) ∧
    ¬∃ depth, Throughout (step bareLibc depth) (Answered bareLibc depth)
      [.call (.fscanf 1 "%d" []), .init] (start () 0) := by
  constructor
  · intro h
    obtain ⟨depth, ⟨v, m', hok, -⟩, -⟩ := h
    have hinside : Inside (start () 0) := ⟨rfl, .inl rfl⟩
    exact (wp_open_inside (Q := fun _ _ => False) hinside "data" 0 []).ok hok
  · intro h
    obtain ⟨depth, ⟨v, m', hok, -⟩, -⟩ := h
    cases depth with
    | zero => cases hok
    | succ depth =>
      rcases settled_start () 0 with hb | hl
      · exact early_fails hb rfl v m' hok
      · cases hl.libc

end UnixProgramming.Fsmon.Proofs
