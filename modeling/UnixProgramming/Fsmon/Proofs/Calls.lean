import UnixProgramming.Fsmon.Monitor

namespace UnixProgramming.Fsmon.Proofs
open Lib

variable {W : Type} {L : Libc W} {self : Call → M W Value} {m m' m₁ : Machine W}
  {E : Fault → Machine W → Prop} {c : Call} {cs cs' : List Call} {n : Name}

/-- The pointers of util.c. -/
def toolNames : List Name := [.sprintf, .memset, .readlink, .fileno, .getpwuid, .getgrgid]

/-- The pointers of fsmon.c. -/
def utilNames : List Name := [.dprintf, .open, .fileno, .dup]

/-- util.c has not been set up, or all its pointers point into libc. -/
def Tooled (m : Machine W) : Prop :=
  (m.libcUtil = none ∧ ∀ n, m.tools n = none) ∨
    (m.libcUtil = some .libc ∧ ∀ n ∈ toolNames, m.tools n = some (.libc n))

/-- Nothing has called `initialize`. -/
structure Blank (m : Machine W) : Prop where
  libc : m.libc = none
  util : ∀ n, m.util n = none
  cached : ∀ n, m.cached n = none
  tooled : Tooled m

/-- `initialize` has run, and no pointer leads back into the library. -/
structure Loaded (m : Machine W) : Prop where
  libc : m.libc = some .libc
  util : ∀ n ∈ utilNames, m.util n = some (.libc n)
  cached : ∀ n, m.cached n = none ∨ m.cached n = some (.libc n)
  tooled : Tooled m

section Asides

/-- The world and `errno` after some calls of libc. -/
def after (L : Libc W) (s : W × Int) (cs : List Call) : W × Int :=
  cs.foldl (fun s c => ((L.real c s.1).world, (L.real c s.1).errno.getD s.2)) s

/-- From `m` to `m'` only calls of libc have been made for the log line. -/
structure Aside (L : Libc W) (cs : List Call) (m m' : Machine W) : Prop where
  libc : m'.libc = m.libc
  OUTPUT : m'.OUTPUT = m.OUTPUT
  util : m'.util = m.util
  cached : m'.cached = m.cached
  trace : m'.trace = m.trace
  tooled : Tooled m'
  ends : (m'.world, m'.errno) = after L (m.world, m.errno) cs

theorem Aside.refl (h : Tooled m) : Aside L [] m m := ⟨rfl, rfl, rfl, rfl, rfl, h, rfl⟩

theorem Aside.trans (h : Aside L cs m m₁) (h' : Aside L cs' m₁ m') : Aside L (cs ++ cs') m m' where
  libc := h'.libc.trans h.libc
  OUTPUT := h'.OUTPUT.trans h.OUTPUT
  util := h'.util.trans h.util
  cached := h'.cached.trans h.cached
  trace := h'.trace.trans h.trace
  tooled := h'.tooled
  ends := by
    rw [h'.ends, h.ends]
    exact (List.foldl_append ..).symm

theorem Aside.called (h : Tooled m) (c : Call) : Aside L [c] m (m.called L c) :=
  ⟨rfl, rfl, rfl, rfl, rfl, h, rfl⟩

theorem Aside.loaded (h : Aside L cs m m') (hm : Loaded m) : Loaded m' where
  libc := h.libc.trans hm.libc
  util := by
    rw [h.util]
    exact hm.util
  cached := by
    rw [h.cached]
    exact hm.cached
  tooled := h.tooled

theorem Aside.world (h : Aside L cs m m') : m'.world = (after L (m.world, m.errno) cs).1 :=
  congrArg Prod.fst h.ends

theorem Aside.errno (h : Aside L cs m m') : m'.errno = (after L (m.world, m.errno) cs).2 :=
  congrArg Prod.snd h.ends

end Asides

section Tools

/-- `initialize_util` has run. -/
def Armed (m : Machine W) : Prop := ∀ n ∈ toolNames, m.tools n = some (.libc n)

theorem Armed.called (h : Armed m) (c : Call) : Armed (m.called L c) := h

/-- What `load_libc` makes of the machine. -/
theorem wp_loadLibc (L : Libc W) (h : Tooled m) :
    Wp (loadLibc : M W Unit) (fun _ m' => Aside L [] m m' ∧ Armed m') E m := by
  unfold loadLibc
  rcases h with ⟨hnone, htools⟩ | ⟨hsome, htools⟩
  · simp only [wp_bind, wp_get, wp_ite, hnone, Option.isNone_none, not_true, false_implies,
      forall_const, and_true, initializeUtil, loadUtil, wp_modify]
    simp [Armed, htools, dlsym, toolNames]
    refine ⟨rfl, rfl, rfl, rfl, rfl, .inr ⟨rfl, ?_⟩, rfl⟩
    simp [toolNames]
  · simp only [wp_bind, wp_get, wp_ite, hsome, Option.isNone_some, Bool.false_eq_true,
      false_implies, true_and, not_false_eq_true, forall_const, wp_pure]
    exact ⟨.refl (.inr ⟨hsome, htools⟩), htools⟩

/-- A function of util.c after its first lines. -/
theorem wp_armed {x : M W α} {Q : α → Machine W → Prop} (L : Libc W) (h : Tooled m)
    (hx : ∀ m₁, Aside L [] m m₁ → Armed m₁ → m₁.world = m.world → Wp x Q E m₁) :
    Wp (do loadLibc; x) Q E m := by
  rw [wp_bind]
  refine (wp_loadLibc L h).mono ?_ fun _ _ he => he
  intro _ m₁ hload
  obtain ⟨haside, harmed⟩ := hload
  exact hx m₁ haside harmed haside.world

theorem wp_libcCall {Q : Value → Machine W → Prop} :
    Wp (libcCall L c) Q E m ↔
      Q ⟨(L.real c m.world).ret, (L.real c m.world).text⟩ (m.called L c) := Iff.rfl

theorem wp_callTool {Q : Value → Machine W → Prop} (n : Name) (h : Armed m)
    (tool : n ∈ toolNames) (name : c.name = n) :
    Wp (callTool L self c) Q E m ↔
      Q ⟨(L.real c m.world).ret, (L.real c m.world).text⟩ (m.called L c) := by
  subst name
  simp only [callTool, wp_bind, wp_get, h c.name tool, callPtr, wp_libcCall]

/-- The calls by which `fd2name` looks a descriptor up. -/
def fdCalls (L : Libc W) (fd : Int) (w : W) : List Call :=
  if fd = 0 ∨ fd = 1 ∨ fd = 2 then []
  else
    let path := Call.sprintf L.path "/proc/self/fd/%d" [.int fd]
    [path, .memset L.name 0 1024, .readlink (L.real path w).text L.name 1024]

theorem wp_fd2name (h : Tooled m) (fd : Int) :
    Wp (fd2name L self fd) (fun _ m' => Aside L (fdCalls L fd m.world) m m') E m := by
  unfold fd2name
  refine wp_armed L h fun m₁ haside harmed hworld => ?_
  have hcalls : fdCalls L fd m.world = [] ++ fdCalls L fd m₁.world := by rw [hworld]; rfl
  rw [hcalls]
  by_cases hstd : fd = 0 ∨ fd = 1 ∨ fd = 2
  · have hnone : fdCalls L fd m₁.world = [] := if_pos hstd
    rw [hnone]
    rcases hstd with rfl | rfl | rfl
    · simpa using haside
    · simpa using haside
    · simpa using haside
  · have hthree : fdCalls L fd m₁.world = [_, _, _] := if_neg hstd
    rw [hthree]
    simp only [not_or] at hstd
    simp only [hstd.1, hstd.2.1, hstd.2.2, if_false, wp_bind]
    rw [wp_callTool .sprintf harmed (by decide) rfl, wp_bind,
      wp_callTool .memset (harmed.called _) (by decide) rfl, wp_bind,
      wp_callTool .readlink ((harmed.called _).called _) (by decide) rfl, wp_pure]
    have hpath := Aside.called (L := L) haside.tooled
      (.sprintf L.path "/proc/self/fd/%d" [.int fd])
    have hzeros := hpath.trans (.called hpath.tooled (.memset L.name 0 1024))
    exact haside.trans (hzeros.trans (.called hzeros.tooled _))

/-- The calls by which `stream2name` looks a stream up. -/
def streamCalls (L : Libc W) (stream : Int) (w : W) : List Call :=
  let fildes := L.real (.fileno stream) w
  .fileno stream :: fdCalls L fildes.ret fildes.world

theorem wp_stream2name (h : Tooled m) (stream : Int) :
    Wp (stream2name L self stream) (fun _ m' => Aside L (streamCalls L stream m.world) m m') E m := by
  unfold stream2name
  refine wp_armed L h fun m₁ haside harmed hworld => ?_
  rw [wp_bind, wp_callTool .fileno harmed (by decide) rfl]
  have hfileno := Aside.called (L := L) haside.tooled (.fileno stream)
  refine (wp_fd2name hfileno.tooled _).mono ?_ fun _ _ he => he
  intro _ m₂ hname
  have hall := haside.trans (hfileno.trans hname)
  rw [streamCalls, ← hworld]
  exact hall

/-- The calls by which a directory is looked up. -/
def dirCalls (L : Libc W) (dirp : Int) (w : W) : List Call :=
  let fildes := L.real (.dirfd dirp) w
  .dirfd dirp :: fdCalls L fildes.ret fildes.world

theorem wp_dir2name (h : Tooled m) (dirp : Int) :
    Wp (dir2name L self dirp) (fun _ m' => dirp ≠ 0 ∧ Aside L (dirCalls L dirp m.world) m m')
      (fun e _ => dirp = 0 ∧ e = .null) m := by
  unfold dir2name dirfd
  rw [wp_bind, wp_ite, wp_throw, wp_libcCall]
  refine ⟨fun hnull => ⟨hnull, rfl⟩, fun hdir => ?_⟩
  have hdirfd := Aside.called (L := L) h (.dirfd dirp)
  refine (wp_fd2name hdirfd.tooled _).mono ?_ fun _ _ he => he
  intro _ m₁ hname
  exact ⟨hdir, hdirfd.trans hname⟩

theorem wp_nameOf {Q : String → Machine W → Prop} (entry : Value) :
    Wp (nameOf entry) Q E m ↔ (entry.ret = 0 → E .null m) ∧ (entry.ret ≠ 0 → Q entry.text m) := by
  simp [nameOf]

/-- `uid2name` and `gid2name` differ in the call that finds the entry. -/
theorem wp_entryName (n : Name) (h : Tooled m) (tool : n ∈ toolNames) (name : c.name = n) :
    Wp (do
        loadLibc
        let entry ← callTool L self c
        nameOf entry)
      (fun _ m' => (L.real c m.world).ret ≠ 0 ∧ Aside L [c] m m')
      (fun e _ => (L.real c m.world).ret = 0 ∧ e = .null) m := by
  refine wp_armed L h fun m₁ haside harmed hworld => ?_
  rw [wp_bind, wp_callTool n harmed tool name, wp_nameOf, hworld]
  exact ⟨fun hnull => ⟨hnull, rfl⟩, fun hentry => ⟨hentry, haside.trans (.called haside.tooled _)⟩⟩

theorem wp_uid2name (h : Tooled m) (uid : Int) :
    Wp (uid2name L self uid)
      (fun _ m' => (L.real (.getpwuid uid) m.world).ret ≠ 0 ∧ Aside L [.getpwuid uid] m m')
      (fun e _ => (L.real (.getpwuid uid) m.world).ret = 0 ∧ e = .null) m :=
  wp_entryName .getpwuid h (by decide) rfl

theorem wp_gid2name (h : Tooled m) (gid : Int) :
    Wp (gid2name L self gid)
      (fun _ m' => (L.real (.getgrgid gid) m.world).ret ≠ 0 ∧ Aside L [.getgrgid gid] m m')
      (fun e _ => (L.real (.getgrgid gid) m.world).ret = 0 ∧ e = .null) m :=
  wp_entryName .getgrgid h (by decide) rfl

end Tools

section Begin

/-- The call by which `initialize` finds `OUTPUT`. -/
def outputCall (L : Libc W) (w : W) : Call :=
  match L.getenv "MONITOR_OUTPUT" w with
  | some path => .open path (O_WRONLY ||| O_TRUNC ||| O_CREAT) [0o644]
  | none => .fileno L.stderr

/-- The world in which the first lines of `FUNC` leave a machine. -/
def begun (L : Libc W) (m : Machine W) : W :=
  if m.libc = none then (L.real (outputCall L m.world) m.world).world else m.world

/-- What the first lines of `FUNC` make of a machine. -/
structure Ready (L : Libc W) (m m' : Machine W) : Prop where
  loaded : Loaded m'
  world : m'.world = begun L m
  trace : m'.trace = m.trace
  kept : m.libc ≠ none → m'.OUTPUT = m.OUTPUT
  errno : m.libc ≠ none → m'.errno = m.errno
  output : m.libc = none → m'.OUTPUT = (L.real (outputCall L m.world) m.world).ret

theorem wp_callUtil {Q : Value → Machine W → Prop} (n : Name)
    (util : m.util n = some (.libc n)) (name : c.name = n) :
    Wp (callUtil L self c) Q E m ↔
      Q ⟨(L.real c m.world).ret, (L.real c m.world).text⟩ (m.called L c) := by
  subst name
  simp only [callUtil, wp_bind, wp_get, util, callPtr, wp_libcCall]

theorem wp_initializeMonitor (h : Blank m) :
    Wp (initializeMonitor L self) (fun _ m' => Ready L m m') E m := by
  have hworld : begun L m = (L.real (outputCall L m.world) m.world).world := if_pos h.libc
  simp only [initializeMonitor, LOAD, wp_bind, wp_modify, wp_get]
  simp only [h.util, store_apply, dlsym, Option.isNone_none, if_true, reduceCtorEq, if_false]
  cases henv : L.getenv "MONITOR_OUTPUT" m.world with
  | some path =>
    have hcall : outputCall L m.world = .open path (O_WRONLY ||| O_TRUNC ||| O_CREAT) [0o644] := by
      rw [outputCall, henv]
    rw [hcall] at hworld
    simp only [wp_bind]
    rw [wp_callUtil .open (by simp) rfl, wp_modify]
    refine ⟨⟨rfl, ?_, fun n => .inl (h.cached n), h.tooled⟩, hworld.symm, rfl,
      fun hlibc => absurd h.libc hlibc, fun hlibc => absurd h.libc hlibc, fun _ => ?_⟩
    · simp [utilNames, Machine.called]
    · rw [hcall]
  | none =>
    have hcall : outputCall L m.world = .fileno L.stderr := by rw [outputCall, henv]
    rw [hcall] at hworld
    simp only [wp_bind]
    rw [wp_callUtil .fileno (by simp) rfl, wp_modify]
    refine ⟨⟨rfl, ?_, fun n => .inl (h.cached n), h.tooled⟩, hworld.symm, rfl,
      fun hlibc => absurd h.libc hlibc, fun hlibc => absurd h.libc hlibc, fun _ => ?_⟩
    · simp [utilNames, Machine.called]
    · rw [hcall]

theorem wp_init (h : Blank m ∨ Loaded m) : Wp (init L self) (fun _ m' => Ready L m m') E m := by
  unfold init
  rw [wp_bind, wp_get, wp_ite, wp_pure]
  rcases h with hb | hl
  · rw [hb.libc]
    exact ⟨fun _ => wp_initializeMonitor hb, fun hn => absurd rfl hn⟩
  · rw [hl.libc]
    refine ⟨fun hn => absurd hn (by simp), fun _ => ⟨hl, ?_, rfl, fun _ => rfl, fun _ => rfl, ?_⟩⟩
    · rw [begun, hl.libc, if_neg (by simp)]
    · intro hn
      rw [hl.libc] at hn
      cases hn

end Begin

end UnixProgramming.Fsmon.Proofs
