import UnixProgramming.Fsmon.Proofs.Sink

namespace UnixProgramming.Fsmon.Proofs
open Lib

variable {W : Type} {L : Libc W} {m m' : Machine W} {c : Call} {v : Value} {depth : Nat} {w : W}
  {e : Int}

/-- The functions on directories, and the ones that tell or change an owner. -/
def dirOrOwner : Call → Bool
  | .opendir _ | .readdir _ | .closedir _ | .chown .. | .lxstat .. | .xstat .. => true
  | _ => false

/-- In every state that the program can be in, such a call returns what libc returned if and only
if nothing that is printed for it lies behind `NULL`. Otherwise it does not return at all. -/
theorem result_transparent_iff (L : Libc W) (w : W) (errno : Int) (depth : Nat) (m : Machine W)
    (reached : Reached (step L (depth + 1)) (fun _ _ _ => True) (start w errno) m) (c : Call)
    (hc : dirOrOwner c = true) :
    (∃ v m', invoke L (depth + 1) c m = .ok v m' ∧ ∃ errno fd format args,
      m'.trace = m.trace ++ [.forward c.name c v.ret errno, .log fd format args]) ↔
      Prints L (begun L m) c := by
  have hown : c.name.own = true := by cases c <;> first | rfl | cases hc
  have hand : handWritten c = false := by cases c <;> first | rfl | cases hc
  have htarget : target c = c.name := by cases c <;> first | rfl | cases hc
  have hpassed : passed c = c := by cases c <;> first | rfl | cases hc
  have hserved := served_iff L depth (reached_settled reached) hown
  rw [hand] at hserved
  simp only [Bool.false_eq_true, false_implies, true_and, Traced, htarget, hpassed] at hserved
  exact hserved

theorem result_transparent_demo : ∃ v m', invoke bareLibc 1 (.readdir 5) (start () 0) = .ok v m' ∧
    ∃ errno fd format args, m'.trace = (start () 0).trace ++
      [.forward .readdir (.readdir 5) v.ret errno, .log fd format args] :=
  (result_transparent_iff bareLibc () 0 0 (start () 0) .init (.readdir 5) rfl).mpr
    (by simp [Prints])

/-- A directory that cannot be opened, and an owner without a name, bring the program down. -/
theorem failing_calls_crash :
    (∃ m', invoke bareLibc 1 (.opendir "none") (start () 0) = .error .null m' ∧ m'.errno = 2) ∧
    ∃ m', invoke bareLibc 1 (.chown "file" 12345 0) (start () 0) = .error .null m' :=
  ⟨⟨_, rfl, rfl⟩, _, rfl⟩

section Errno

/-- The functions that take a descriptor or a stream. -/
def onDescriptor : Call → Bool
  | .read .. | .write .. | .pwrite .. | .close _ | .fclose _ | .fread .. | .fwrite .. | .fgetc _
  | .fgets .. | .readdir _ | .closedir _ | .fprintf .. | .fscanf .. => true
  | _ => false

/-- The last value that some calls of libc give to `errno`. -/
def lastErrno (L : Libc W) (w : W) : List Call → Option Int
  | [] => none
  | c :: cs => (lastErrno L (L.real c w).world cs).or (L.real c w).errno

theorem after_errno (cs : List Call) : (after L (w, e) cs).2 = (lastErrno L w cs).getD e := by
  induction cs generalizing w e with
  | nil => rfl
  | cons c cs ih =>
    rw [after, List.foldl_cons, ← after, ih, lastErrno]
    cases lastErrno L (L.real c w).world cs with
    | none => rfl
    | some x => rfl

/-- If some calls of libc set `errno`, they leave `e` in it. -/
def Leaves (L : Libc W) (w : W) (e : Int) (cs : List Call) : Prop := ∀ x ∈ lastErrno L w cs, x = e

/-- `errno` is `e` when the call has failed in `w`, and the name for the log line does not change
it: it was looked up before, or its descriptor is 0, 1 or 2, or the calls that look it up all
succeed, or the last one of them that fails sets `e` again. -/
def Undisturbed (L : Libc W) (w : W) (e : Int) : Call → Prop
  | .close _ | .closedir _ | .readdir _ | .fclose _ => True
  | .read fildes _ _ | .write fildes _ _ | .pwrite fildes _ _ _ =>
    fildes = 0 ∨ fildes = 1 ∨ fildes = 2 ∨ Leaves L w e (fdCalls L fildes w)
  | .fread _ _ _ stream | .fwrite _ _ _ stream | .fgetc stream | .fgets _ _ stream
  | .fprintf stream _ _ | .fscanf stream _ _ => Leaves L w e (streamCalls L stream w)
  | _ => True

theorem leaves_iff (cs : List Call) : (after L (w, e) cs).2 = e ↔ Leaves L w e cs := by
  rw [after_errno, Leaves]
  cases lastErrno L w cs with
  | none => simp
  | some x => simp

theorem leaves_fd (fildes : Int) : Leaves L w e (fdCalls L fildes w) ↔
    fildes = 0 ∨ fildes = 1 ∨ fildes = 2 ∨ Leaves L w e (fdCalls L fildes w) := by
  constructor
  · exact fun h => .inr (.inr (.inr h))
  · intro h
    by_cases hstd : fildes = 0 ∨ fildes = 1 ∨ fildes = 2
    · have hnone : fdCalls L fildes w = [] := if_pos hstd
      rw [hnone]
      intro x hx
      cases hx
    · tauto

/-- Without calls before it, a call is made in the world that the first lines of `FUNC` leave. -/
theorem world_at_call {m₁ m₂ : Machine W} (ready : Ready L m m₁) (none : Aside L [] m₁ m₂) :
    m₂.world = begun L m := none.world.trans ready.world

theorem leaves_asides {m₁ m₂ : Machine W} (hc : onDescriptor c = true) (ready : Ready L m m₁)
    (prior : Prior L c m₁ m₂) :
    Leaves L (L.real (passed c) m₂.world).world e (asides L c (L.real (passed c) m₂.world)) ↔
      Undisturbed L (L.real (passed c) (begun L m)).world e c := by
  have hnone : Leaves L (L.real (passed c) m₂.world).world e [] ↔ True :=
    iff_true_intro fun x hx => by cases hx
  cases c with
  | close fildes | closedir dirp | readdir dirp | fclose stream => exact hnone
  | read fildes buf nbyte | write fildes buf nbyte | pwrite fildes buf nbyte offset =>
    rw [← world_at_call ready prior]
    exact leaves_fd fildes
  | fread ptr size nmemb stream | fwrite ptr size nmemb stream | fgetc stream | fgets s size stream
  | fprintf stream format ap | fscanf stream format ap =>
    rw [← world_at_call ready prior]
    exact Iff.rfl
  | _ => cases hc

/-- The line that a machine has just logged has left `errno` alone, as `dprintf` does on a sink that
works. -/
def Sinks (L : Libc W) (m' : Machine W) : Prop := ∀ m format args,
  m' = logged L m format args → (L.real (.dprintf m.OUTPUT format args) m.world).errno = none

/-- On a kernel this is so when there is an open file behind `OUTPUT`. -/
theorem sinks_open {K : Kernel} {m' : Machine Proc} {f : Nat} (h : outputFile m' = some f) :
    Sinks K.libc m' := by
  rintro m format args rfl
  have hfile : outputFile (logged K.libc m format args) = outputFile m := by
    change ((K.libc.real (.dprintf m.OUTPUT format args) m.world).world).fileAt m.OUTPUT = _
    rw [dprintf_world]
    rfl
  have hm : m.world.fileAt m.OUTPUT = some f := hfile.symm.trans h
  change (K.real (.dprintf m.OUTPUT format args) m.world).errno = none
  simp [Kernel.real, hm]

/-- When a wrapper returns, `errno` is what the call that was passed on left in it, if and only if
the name for the log line does not change it. -/
theorem Serves.errno_iff (h : Serves L m c v m') (hc : onDescriptor c = true)
    (sink : Sinks L m') :
    ∃ e fd format args, m'.trace =
      m.trace ++ [.forward (target c) (passed c) v.ret e, .log fd format args] ∧
      (m'.errno = e ↔ Undisturbed L (L.real (passed c) (begun L m)).world e c) := by
  cases h with
  | @mk m₁ m₂ m₃ format args ready prior keeps aside =>
    refine ⟨_, _, format, args, logged_trace format args ready keeps aside, ?_⟩
    have hlog : (logged L m₃ format args).errno = m₃.errno := by
      simp [logged, Machine.note, Machine.called, sink m₃ format args rfl]
    rw [hlog, aside.errno, ← leaves_asides hc ready prior]
    exact leaves_iff _

/-- A call on a descriptor or a stream leaves the `errno` of libc's function to the program if and
only if the name for the log line does not change it. -/
theorem errno_transparent_iff (L : Libc W) (w : W) (errno : Int) (depth : Nat) (m : Machine W)
    (reached : Reached (step L (depth + 1)) (fun _ _ _ => True) (start w errno) m) (c : Call)
    (hc : onDescriptor c = true) (v : Value) (m' : Machine W)
    (returns : invoke L (depth + 1) c m = .ok v m') (sink : Sinks L m') :
    ∃ e fd format args, m'.trace =
      m.trace ++ [.forward (target c) (passed c) v.ret e, .log fd format args] ∧
      (m'.errno = e ↔ Undisturbed L (L.real (passed c) (begun L m)).world e c) := by
  have hown : c.name.own = true := by cases c <;> first | rfl | cases hc
  have hsettled := reached_settled reached
  have hgood : Good L c m (wrapper L (invoke L depth) c) :=
    good_wrapper hsettled hown (returns_begun hsettled returns)
  exact (Wp.ok hgood returns).1.errno_iff hc sink

/-- `close` fails, and its `errno` is the program's: the name was looked up before. -/
theorem errno_transparent_demo : ∃ m', invoke demoKernel.libc 1 (.close 9) (start demoProc 0) =
      .ok ⟨-1, ""⟩ m' ∧
    ∃ e fd format args, m'.trace = (start demoProc 0).trace ++
      [.forward .close (.close 9) (-1) e, .log fd format args] ∧ m'.errno = e := by
  refine ⟨_, rfl, ?_⟩
  obtain ⟨e, fd, format, args, htrace, herrno⟩ := errno_transparent_iff demoKernel.libc demoProc 0 0
    (start demoProc 0) .init (.close 9) rfl ⟨-1, ""⟩ _ rfl (sinks_open (f := 2) rfl)
  exact ⟨e, fd, format, args, htrace, herrno.mpr trivial⟩

/-- `read` fails with `EBADF` (9), and the program finds the `ENOENT` (2) of the link. -/
theorem errno_lost : ∃ m', invoke bareLibc 1 (.read 9 0 4) (start () 0) = .ok ⟨-1, ""⟩ m' ∧
    m'.trace.head? = some (.forward .read (.read 9 0 4) (-1) 9) ∧ m'.errno = 2 :=
  ⟨_, rfl, rfl, rfl⟩

end Errno

end UnixProgramming.Fsmon.Proofs
