import UnixProgramming.Fsmon.Proofs.Calls

namespace UnixProgramming.Fsmon.Proofs
open Lib

variable {W : Type} {L : Libc W} {self : Call → M W Value} {m m' m₁ m₂ m₃ : Machine W}
  {E : Fault → Machine W → Prop} {c : Call} {n : Name}

/-- The function of libc that a call goes on to: a variable argument list is passed on as one. -/
def target : Call → Name
  | .fscanf .. => .vfscanf
  | .fprintf .. => .vfprintf
  | c => c.name

/-- The call that is passed on. -/
def passed : Call → Call
  | .fscanf stream format ap => .vfscanf stream format ap
  | .fprintf stream format ap => .vfprintf stream format ap
  | .open path oflag ap =>
    .open path oflag (if oflag &&& O_CREAT = O_CREAT then [vaArg ap] else [])
  | c => c

/-- The wrappers that are written out by hand, without the first lines of `FUNC`. -/
def handWritten : Call → Bool
  | .fscanf .. | .fprintf .. | .open .. => true
  | _ => false

/-- The calls made for the log line before the call itself. -/
def preludes (L : Libc W) : Call → W → List Call
  | .closedir dirp, w | .readdir dirp, w => dirCalls L dirp w
  | .close fildes, w => fdCalls L fildes w
  | .fclose stream, w => streamCalls L stream w ++ [.fileno stream]
  | _, _ => []

/-- The calls made for the log line after a call with reply `r`. -/
def asides (L : Libc W) (c : Call) (r : Reply W) : List Call :=
  match c with
  | .read fildes _ _ | .write fildes _ _ | .pwrite fildes _ _ _ => fdCalls L fildes r.world
  | .fread _ _ _ stream | .fwrite _ _ _ stream | .fgetc stream | .fgets _ _ stream
  | .fscanf stream _ _ | .fprintf stream _ _ => streamCalls L stream r.world
  | .opendir _ => dirCalls L r.ret r.world
  | .chown _ owner group => [.getpwuid owner, .getgrgid group]
  | _ => []

/-- Nothing that is printed for the call lies behind `NULL`, and the buffer of `readlink` holds a
string after it. `w` is the world at the call. -/
def Prints (L : Libc W) (w : W) : Call → Prop
  | .opendir name => (L.real (.opendir name) w).ret ≠ 0
  | .closedir dirp | .readdir dirp => dirp ≠ 0
  | .chown path owner group =>
    let chowned := (L.real (.chown path owner group) w).world
    let pwd := L.real (.getpwuid owner) chowned
    pwd.ret ≠ 0 ∧ (L.real (.getgrgid group) pwd.world).ret ≠ 0
  | .lxstat _ _ statBuf | .xstat _ _ statBuf => statBuf ≠ 0
  | .readlink path buf bufsize =>
    (L.string buf (L.real (.readlink path buf bufsize) w).world).isSome
  | _ => True

section Macro

/-- The machine after a call through the pointer of a wrapper. -/
def forwarded (L : Libc W) (m : Machine W) (n : Name) (c : Call) : Machine W :=
  (m.called L c).note (.forward n c (L.real c m.world).ret (m.called L c).errno)

/-- The machine after its log line. -/
def logged (L : Libc W) (m : Machine W) (format : String) (args : List Arg) : Machine W :=
  (m.called L (.dprintf m.OUTPUT format args)).note (.log m.OUTPUT format args)

/-- The result of a call. -/
def result (L : Libc W) (c : Call) (w : W) : Value := ⟨(L.real c w).ret, (L.real c w).text⟩

/-- From `m` to `m'` the library stays loaded, and has forwarded and logged nothing. -/
structure Keeps (m m' : Machine W) : Prop where
  loaded : Loaded m'
  cached : m'.cached = m.cached
  trace : m'.trace = m.trace

theorem Aside.keeps {cs : List Call} (h : Aside L cs m m') (hm : Loaded m) : Keeps m m' :=
  ⟨h.loaded hm, h.cached, h.trace⟩

theorem Loaded.forwarded (h : Loaded m) : Loaded (forwarded L m n c) :=
  ⟨h.libc, h.util, h.cached, h.tooled⟩

theorem wp_forward {Q : Value → Machine W → Prop} (h : m.cached n = some (.libc n)) :
    Wp (forward L self (m.cached n) c) Q E m ↔
      Q (result L c m.world) (forwarded L m n c) := by
  rw [h]
  exact Iff.rfl

theorem wp_dprintfUtil {Q : Unit → Machine W → Prop} (h : Loaded m) (format : String)
    (args : List Arg) :
    Wp (dprintfUtil L self format args) Q E m ↔ Q () (logged L m format args) := by
  unfold dprintfUtil
  rw [wp_bind, wp_get, wp_bind, wp_callUtil .dprintf (h.util _ (by decide)) rfl]
  exact Iff.rfl

theorem wp_resolve (h : Loaded m) (n : Name) :
    Wp (resolve n) (fun _ m' => Keeps { m with cached := m'.cached } m' ∧
      m'.cached n = some (.libc n) ∧ m'.world = m.world ∧ m'.OUTPUT = m.OUTPUT ∧
      m'.errno = m.errno) E m := by
  unfold resolve
  rw [wp_modify]
  rcases h.cached n with hn | hn
  · rw [hn, Option.isNone_none, if_pos rfl, h.libc]
    refine ⟨⟨⟨rfl, h.util, ?_, h.tooled⟩, rfl, rfl⟩, by simp [dlsym], rfl, rfl, rfl⟩
    intro k
    by_cases hk : k = n
    · right
      simp [hk, dlsym]
    · simpa [hk] using h.cached k
  · rw [hn, Option.isNone_some, if_neg (by simp)]
    exact ⟨⟨h, rfl, rfl⟩, hn, rfl, rfl, rfl⟩

/-- `FUNC` forwards the call between what it does for the log before and after. -/
theorem wp_FUNC {Q : Value → Machine W → Prop} {preprocess : M W σ} {funcname fmt : String}
    {args3 : σ → Value → M W (List Arg)} (begins : Blank m ∨ Loaded m)
    (run : ∀ m₁, Ready L m m₁ → Wp preprocess (fun a m₂ => Keeps m₁ m₂ ∧
      Wp (args3 a (result L c m₂.world)) (fun _ m₃ => Keeps (forwarded L m₂ c.name c) m₃ ∧
        ∀ format args, Q (result L c m₂.world) (logged L m₃ format args)) E
        (forwarded L m₂ c.name c)) E m₁) :
    Wp (FUNC L self c funcname preprocess fmt args3) Q E m := by
  unfold FUNC
  rw [wp_bind]
  refine (wp_init begins).mono ?_ fun _ _ he => he
  intro _ m₀ hready
  rw [wp_bind]
  refine (wp_resolve hready.loaded c.name).mono ?_ fun _ _ he => he
  intro _ m₁ hresolved
  obtain ⟨hkeeps, hcached, hworld, hOUTPUT, herrno⟩ := hresolved
  have hready₁ : Ready L m m₁ := ⟨hkeeps.loaded, hworld.trans hready.world,
    hkeeps.trace.trans hready.trace, fun hm => hOUTPUT.trans (hready.kept hm),
    fun hm => herrno.trans (hready.errno hm), fun hm => hOUTPUT.trans (hready.output hm)⟩
  rw [wp_bind]
  refine (run m₁ hready₁).mono ?_ fun _ _ he => he
  intro a m₂ hpre
  obtain ⟨hkeeps₂, hargs⟩ := hpre
  rw [wp_bind, wp_get, wp_bind, wp_forward (hkeeps₂.cached ▸ hcached), wp_bind]
  refine hargs.mono ?_ fun _ _ he => he
  intro args m₃ hlog
  obtain ⟨hkeeps₃, hQ⟩ := hlog
  rw [wp_bind, wp_dprintfUtil hkeeps₃.loaded, wp_pure]
  exact hQ _ _

end Macro

section Served

/-- What `fclose` does before its call: it looks the stream up, and moves `OUTPUT` when the
stream is on it. -/
def Closing (L : Libc W) (stream : Int) (m m' : Machine W) : Prop :=
  ∃ m₁, Aside L (streamCalls L stream m.world ++ [.fileno stream]) m m₁ ∧
    m' = if (L.real (.fileno stream) (after L (m.world, m.errno)
        (streamCalls L stream m.world)).1).ret = m₁.OUTPUT then
      { m₁.called L (.dup 2) with OUTPUT := (L.real (.dup 2) m₁.world).ret } else m₁

/-- What a wrapper does between its first lines and its call. -/
def Prior (L : Libc W) (c : Call) (m m' : Machine W) : Prop :=
  match c with
  | .fclose stream => Closing L stream m m'
  | .closedir dirp | .readdir dirp => dirp ≠ 0 ∧ Aside L (preludes L c m.world) m m'
  | c => Aside L (preludes L c m.world) m m'

/-- A call of a wrapper that returns: it was forwarded once, and then logged. -/
inductive Serves (L : Libc W) (m : Machine W) (c : Call) : Value → Machine W → Prop
  | mk {m₁ m₂ m₃ : Machine W} (format : String) (args : List Arg) (ready : Ready L m m₁)
      (prior : Prior L c m₁ m₂) (keeps : Keeps m₁ m₂)
      (aside : Aside L (asides L c (L.real (passed c) m₂.world))
        (forwarded L m₂ (target c) (passed c)) m₃) :
      Serves L m c (result L (passed c) m₂.world) (logged L m₃ format args)

/-- What is proved of each wrapper. -/
def Good (L : Libc W) (c : Call) (m : Machine W) (wrapped : M W Value) : Prop :=
  Wp wrapped (fun v m' => Serves L m c v m' ∧ Prints L (begun L m) c)
    (fun _ _ => ¬Prints L (begun L m) c) m

theorem Closing.keeps {stream : Int} (h : Closing L stream m m') (hm : Loaded m) : Keeps m m' := by
  obtain ⟨m₁, haside, rfl⟩ := h
  have hkeeps := haside.keeps hm
  split
  · exact ⟨⟨hkeeps.loaded.libc, hkeeps.loaded.util, hkeeps.loaded.cached, hkeeps.loaded.tooled⟩,
      hkeeps.cached, hkeeps.trace⟩
  · exact hkeeps

theorem Good.FUNC {preprocess : M W σ} {funcname fmt : String} {args3 : σ → Value → M W (List Arg)}
    (begins : Blank m ∨ Loaded m) (htarget : target c = c.name) (hpassed : passed c = c)
    (pre : ∀ m₁, Ready L m m₁ → Wp preprocess (fun _ m₂ => Prior L c m₁ m₂ ∧ Keeps m₁ m₂)
      (fun _ _ => ¬Prints L (begun L m) c) m₁)
    (args : ∀ a m₁ m₂, Ready L m m₁ → Prior L c m₁ m₂ → Tooled (forwarded L m₂ c.name c) →
      Wp (args3 a (result L c m₂.world)) (fun _ m₃ => Prints L (begun L m) c ∧
        Aside L (asides L c (L.real c m₂.world)) (forwarded L m₂ c.name c) m₃)
      (fun _ _ => ¬Prints L (begun L m) c) (forwarded L m₂ c.name c)) :
    Good L c m (Fsmon.FUNC L self c funcname preprocess fmt args3) := by
  refine wp_FUNC begins fun m₁ hready => (pre m₁ hready).mono ?_ fun _ _ he => he
  intro a m₂ hpre
  obtain ⟨hprior, hkeeps⟩ := hpre
  refine ⟨hkeeps, (args a m₁ m₂ hready hprior hkeeps.loaded.tooled).mono ?_ fun _ _ he => he⟩
  intro args m₃ hargs
  obtain ⟨hprints, haside⟩ := hargs
  refine ⟨haside.keeps hkeeps.loaded.forwarded, fun format args => ⟨?_, hprints⟩⟩
  have haside' : Aside L (asides L c (L.real (passed c) m₂.world))
      (forwarded L m₂ (target c) (passed c)) m₃ := by
    rw [htarget, hpassed]
    exact haside
  have hserves := Serves.mk format args hready hprior hkeeps haside'
  rw [hpassed] at hserves
  exact hserves

/-- A wrapper that does nothing before its call. -/
theorem Good.after {fmt funcname : String} {args3 : Unit → Value → M W (List Arg)}
    (begins : Blank m ∨ Loaded m) (htarget : target c = c.name) (hpassed : passed c = c)
    (hprior : ∀ m m' : Machine W, Prior L c m m' ↔ Aside L [] m m')
    (args : ∀ m₂, m₂.world = begun L m → Tooled (forwarded L m₂ c.name c) →
      Wp (args3 () (result L c m₂.world)) (fun _ m₃ => Prints L (begun L m) c ∧
        Aside L (asides L c (L.real c m₂.world)) (forwarded L m₂ c.name c) m₃)
      (fun _ _ => ¬Prints L (begun L m) c) (forwarded L m₂ c.name c)) :
    Good L c m (Fsmon.FUNC L self c funcname (pure ()) fmt args3) := by
  refine .FUNC begins htarget hpassed (fun m₁ hready => ?_) fun _ m₁ m₂ hready hm₂ htooled => ?_
  · have haside := Aside.refl (L := L) hready.loaded.tooled
    exact ⟨(hprior m₁ m₁).mpr haside, haside.keeps hready.loaded⟩
  · have hworld : m₂.world = m₁.world := ((hprior m₁ m₂).mp hm₂).world
    exact args m₂ (hworld.trans hready.world) htooled

/-- A wrapper that prints only its arguments and the result. -/
theorem Good.plain {fmt funcname : String} {args : Value → List Arg}
    (begins : Blank m ∨ Loaded m) (htarget : target c = c.name) (hpassed : passed c = c)
    (hprior : ∀ m m' : Machine W, Prior L c m m' ↔ Aside L [] m m')
    (hasides : ∀ r, asides L c r = []) (hprints : ∀ w, Prints L w c) :
    Good L c m (Fsmon.FUNC L self c funcname (pure ()) fmt fun _ ret => return args ret) := by
  refine .after begins htarget hpassed hprior fun m₂ _ htooled => ?_
  rw [wp_pure, hasides]
  exact ⟨hprints _, .refl htooled⟩

/-- A wrapper that prints the name of a descriptor. -/
theorem Good.fd {fildes : Int} {fmt funcname : String} {args : String → Value → List Arg}
    (begins : Blank m ∨ Loaded m) (htarget : target c = c.name) (hpassed : passed c = c)
    (hprior : ∀ m m' : Machine W, Prior L c m m' ↔ Aside L [] m m')
    (hasides : ∀ r, asides L c r = fdCalls L fildes r.world) (hprints : ∀ w, Prints L w c) :
    Good L c m (Fsmon.FUNC L self c funcname (pure ()) fmt fun _ ret => do
      return args (← fd2name L self fildes) ret) := by
  refine .after begins htarget hpassed hprior fun m₂ _ htooled => ?_
  rw [wp_bind, hasides]
  exact (wp_fd2name htooled fildes).mono (fun _ _ h => ⟨hprints _, h⟩) fun _ _ he => he

/-- A wrapper that prints the name of a stream. -/
theorem Good.stream {stream : Int} {fmt funcname : String} {args : String → Value → List Arg}
    (begins : Blank m ∨ Loaded m) (htarget : target c = c.name) (hpassed : passed c = c)
    (hprior : ∀ m m' : Machine W, Prior L c m m' ↔ Aside L [] m m')
    (hasides : ∀ r, asides L c r = streamCalls L stream r.world) (hprints : ∀ w, Prints L w c) :
    Good L c m (Fsmon.FUNC L self c funcname (pure ()) fmt fun _ ret => do
      return args (← stream2name L self stream) ret) := by
  refine .after begins htarget hpassed hprior fun m₂ _ htooled => ?_
  rw [wp_bind, hasides]
  exact (wp_stream2name htooled stream).mono (fun _ _ h => ⟨hprints _, h⟩) fun _ _ he => he

/-- A wrapper that looks its directory up before the call. -/
theorem Good.dir {dirp : Int} {fmt funcname : String} {args : String → Value → List Arg}
    (begins : Blank m ∨ Loaded m) (htarget : target c = c.name) (hpassed : passed c = c)
    (hprior : ∀ m m' : Machine W,
      Prior L c m m' ↔ dirp ≠ 0 ∧ Aside L (dirCalls L dirp m.world) m m')
    (hasides : ∀ r, asides L c r = []) (hprints : ∀ w, Prints L w c ↔ dirp ≠ 0) :
    Good L c m (Fsmon.FUNC L self c funcname (dir2name L self dirp) fmt fun name ret =>
      return args name ret) := by
  refine .FUNC begins htarget hpassed (fun m₁ hready => ?_) fun _ m₁ m₂ _ hm₂ htooled => ?_
  · refine (wp_dir2name hready.loaded.tooled dirp).mono ?_ ?_
    · intro _ m₂ h
      exact ⟨(hprior m₁ m₂).mpr h, h.2.keeps hready.loaded⟩
    · intro e _ he
      rw [hprints]
      exact not_not.mpr he.1
  · rw [wp_pure, hasides]
    exact ⟨(hprints _).mpr ((hprior m₁ m₂).mp hm₂).1, .refl htooled⟩

theorem good_opendir (begins : Blank m ∨ Loaded m) (name : String) :
    Good L (.opendir name) m (opendir L self name) := by
  refine .after begins rfl rfl (fun _ _ => Iff.rfl) fun m₂ hworld htooled => ?_
  rw [wp_bind, ← hworld]
  exact (wp_dir2name htooled _).mono (fun _ _ h => h) fun _ _ he => not_not.mpr he.1

theorem good_chown (begins : Blank m ∨ Loaded m) (path : String) (owner group : Int) :
    Good L (.chown path owner group) m (chown L self path owner group) := by
  refine .after begins rfl rfl (fun _ _ => Iff.rfl) fun m₂ hworld htooled => ?_
  rw [wp_bind, ← hworld]
  refine (wp_uid2name htooled owner).mono ?_ fun _ _ he hboth => hboth.1 he.1
  intro _ m₃ hpwd
  obtain ⟨hpwd, haside⟩ := hpwd
  have hworld₃ := haside.world
  rw [wp_bind]
  refine (wp_gid2name haside.tooled group).mono ?_ ?_
  · intro _ m₄ hgrp
    rw [hworld₃] at hgrp
    exact ⟨⟨hpwd, hgrp.1⟩, haside.trans hgrp.2⟩
  · intro _ _ he
    rw [hworld₃] at he
    exact fun hboth => hboth.2 he.1

theorem good_stat {ver statBuf : Int} {path funcname fmt : String} (begins : Blank m ∨ Loaded m)
    (hc : c = .lxstat ver path statBuf ∨ c = .xstat ver path statBuf) :
    Good L c m (FUNC L self c funcname (pure ()) fmt
      fun _ ret => statArgs L path statBuf ret) := by
  have hprints : ∀ w, Prints L w c ↔ statBuf ≠ 0 := by
    rcases hc with rfl | rfl
    · exact fun _ => Iff.rfl
    · exact fun _ => Iff.rfl
  have hasides : ∀ r : Reply W, asides L c r = [] := by
    rcases hc with rfl | rfl
    · exact fun _ => rfl
    · exact fun _ => rfl
  refine .after begins ?_ ?_ ?_ fun m₂ _ htooled => ?_
  · rcases hc with rfl | rfl <;> rfl
  · rcases hc with rfl | rfl <;> rfl
  · rcases hc with rfl | rfl
    · exact fun _ _ => Iff.rfl
    · exact fun _ _ => Iff.rfl
  · unfold statArgs
    rw [wp_ite, wp_throw, hprints, hasides, wp_bind, wp_get, wp_pure]
    exact ⟨fun hnull => not_not.mpr hnull, fun hbuf => ⟨hbuf, .refl htooled⟩⟩

theorem good_readlink (begins : Blank m ∨ Loaded m) (path : String) (buf bufsize : Int) :
    Good L (.readlink path buf bufsize) m (readlink L self path buf bufsize) := by
  refine .after begins rfl rfl (fun _ _ => Iff.rfl) fun m₂ hworld htooled => ?_
  have hprints : Prints L (begun L m) (.readlink path buf bufsize) ↔
      (L.string buf (forwarded L m₂ .readlink (.readlink path buf bufsize)).world).isSome := by
    rw [← hworld]
    exact Iff.rfl
  unfold bufText
  rw [hprints, wp_bind, wp_bind, wp_get]
  dsimp only [Call.name] at htooled ⊢
  cases L.string buf (forwarded L m₂ .readlink (.readlink path buf bufsize)).world with
  | some s => exact ⟨rfl, .refl htooled⟩
  | none => simp

theorem good_close (begins : Blank m ∨ Loaded m) (fildes : Int) :
    Good L (.close fildes) m (close L self fildes) := by
  refine .FUNC begins rfl rfl (fun m₁ hready => ?_) fun _ m₁ m₂ _ _ htooled => ?_
  · refine (wp_fd2name hready.loaded.tooled fildes).mono ?_ fun _ _ he => he
    exact fun _ m₂ h => ⟨h, h.keeps hready.loaded⟩
  · exact ⟨trivial, .refl htooled⟩

theorem wp_keepOutput (h : Loaded m) (stream : Int) :
    Wp (keepOutput L self stream) (fun _ m' => Closing L stream m m') E m := by
  unfold keepOutput
  rw [wp_bind]
  refine (wp_stream2name h.tooled stream).mono ?_ fun _ _ he => he
  intro name m₁ haside
  have hutil : ∀ n ∈ utilNames, m₁.util n = some (.libc n) := (haside.loaded h).util
  have hdup : (m₁.called L (.fileno stream)).util .dup = some (.libc .dup) := hutil _ (by decide)
  have hfileno := haside.trans (.called haside.tooled (.fileno stream))
  rw [wp_bind, wp_callUtil .fileno (hutil _ (by decide)) rfl, wp_bind, wp_get]
  dsimp only
  rw [wp_ite]
  refine ⟨fun heq => ?_, fun hne => ?_⟩
  · rw [wp_bind, wp_callUtil .dup hdup rfl, wp_bind, wp_modify, wp_pure]
    refine ⟨_, hfileno, ?_⟩
    rw [haside.world] at heq
    rw [if_pos heq]
  · rw [wp_pure]
    refine ⟨_, hfileno, ?_⟩
    rw [haside.world] at hne
    rw [if_neg hne]

theorem good_fclose (begins : Blank m ∨ Loaded m) (stream : Int) :
    Good L (.fclose stream) m (fclose L self stream) := by
  refine .FUNC begins rfl rfl (fun m₁ hready => ?_) fun _ m₁ m₂ _ _ htooled => ?_
  · refine (wp_keepOutput hready.loaded stream).mono ?_ fun _ _ he => he
    exact fun _ m₂ h => ⟨h, h.keeps hready.loaded⟩
  · exact ⟨trivial, .refl htooled⟩

section Hand

/-- The first lines of a wrapper without the ones of `FUNC`, once these have run. -/
theorem wp_resolve_ready (L : Libc W) (hm : Loaded m) (n : Name) :
    Wp (resolve n) (fun _ m' => Ready L m m' ∧ m'.cached n = some (.libc n)) E m := by
  refine (wp_resolve hm n).mono ?_ fun _ _ he => he
  intro _ m₁ hresolved
  obtain ⟨hkeeps, hcached, hworld, hOUTPUT, herrno⟩ := hresolved
  have hlibc : m.libc ≠ none := by simp [hm.libc]
  exact ⟨⟨hkeeps.loaded, by rw [hworld, begun, if_neg hlibc], hkeeps.trace, fun _ => hOUTPUT,
    fun _ => herrno, fun hn => absurd hn hlibc⟩, hcached⟩

/-- A wrapper that passes on its argument list. -/
theorem Good.list {stream : Int} {line : String} {args : String → Value → List Arg} (hm : Loaded m)
    (hasides : ∀ r, asides L c r = streamCalls L stream r.world) (hprints : ∀ w, Prints L w c)
    (hprior : ∀ m m' : Machine W, Prior L c m m' ↔ Aside L [] m m') :
    Good L c m (do
      resolve (target c)
      let ret ← forward L self ((← get).cached (target c)) (passed c)
      let name ← stream2name L self stream
      dprintfUtil L self line (args name ret)
      return ret) := by
  unfold Good
  rw [wp_bind]
  refine (wp_resolve_ready L hm (target c)).mono ?_ fun _ _ he => he
  intro _ m₁ hready
  obtain ⟨hready, hcached⟩ := hready
  rw [wp_bind, wp_get, wp_bind, wp_forward hcached, wp_bind]
  refine (wp_stream2name hready.loaded.forwarded.tooled stream).mono ?_ fun _ _ he => he
  intro name m₃ haside
  rw [wp_bind, wp_dprintfUtil (haside.loaded hready.loaded.forwarded), wp_pure]
  have hnone := Aside.refl (L := L) hready.loaded.tooled
  refine ⟨.mk _ _ hready ((hprior m₁ m₁).mpr hnone) (hnone.keeps hready.loaded) ?_, hprints _⟩
  rw [hasides]
  exact haside

theorem good_open (hm : Loaded m) (path : String) (oflag : Nat) (ap : List Int) :
    Good L (.open path oflag ap) m («open» L self path oflag ap) := by
  unfold «open» Good
  rw [wp_bind]
  refine (wp_resolve_ready L hm .open).mono ?_ fun _ _ he => he
  intro _ m₁ hready
  obtain ⟨hready, hcached⟩ := hready
  have hserves : ∀ format args, Serves L m (.open path oflag ap)
      (result L (passed (.open path oflag ap)) m₁.world)
      (logged L (forwarded L m₁ .open (passed (.open path oflag ap))) format args) := by
    intro format args
    have haside := Aside.refl (L := L) hready.loaded.tooled
    exact .mk _ _ hready haside (haside.keeps hready.loaded) (.refl hready.loaded.tooled)
  rw [wp_ite]
  refine ⟨fun hcreat => ?_, fun hcreat => ?_⟩
  · simp only [passed, hcreat, if_true] at hserves
    dsimp only
    rw [wp_bind, wp_get, wp_bind, wp_forward hcached, wp_bind,
      wp_dprintfUtil hready.loaded.forwarded, wp_pure]
    exact ⟨hserves _ _, trivial⟩
  · simp only [passed, hcreat, if_false] at hserves
    rw [wp_bind, wp_get, wp_bind, wp_forward hcached, wp_bind,
      wp_dprintfUtil hready.loaded.forwarded, wp_pure]
    exact ⟨hserves _ _, trivial⟩

end Hand

end Served

/-- Every wrapper forwards its call once and logs it, or runs into a `NULL` that it prints. The
ones written out by hand need `initialize` to have run. -/
theorem good_wrapper (begins : Blank m ∨ Loaded m) (own : c.name.own = true)
    (hand : handWritten c = true → m.libc ≠ none) : Good L c m (wrapper L self c) := by
  have hloaded : handWritten c = true → Loaded m := by
    intro hc
    rcases begins with hb | hl
    · exact absurd hb.libc (hand hc)
    · exact hl
  cases c with
  | fscanf stream format ap | fprintf stream format ap =>
    exact .list (hloaded rfl) (fun _ => rfl) (fun _ => trivial) fun _ _ => Iff.rfl
  | «open» path oflag ap => exact good_open (hloaded rfl) path oflag ap
  | closedir dirp =>
    exact .dir begins rfl rfl (fun _ _ => Iff.rfl) (fun _ => rfl) fun _ => Iff.rfl
  | readdir dirp =>
    exact .dir begins rfl rfl (fun _ _ => Iff.rfl) (fun _ => rfl) fun _ => Iff.rfl
  | opendir name => exact good_opendir begins name
  | read fildes buf nbyte | write fildes buf nbyte | pwrite fildes buf nbyte offset =>
    exact .fd begins rfl rfl (fun _ _ => Iff.rfl) (fun _ => rfl) fun _ => trivial
  | close fildes => exact good_close begins fildes
  | lxstat ver path statBuf => exact good_stat begins (.inl rfl)
  | xstat ver path statBuf => exact good_stat begins (.inr rfl)
  | fclose stream => exact good_fclose begins stream
  | fread ptr size nmemb stream | fwrite ptr size nmemb stream | fgetc stream
  | fgets s size stream =>
    exact .stream begins rfl rfl (fun _ _ => Iff.rfl) (fun _ => rfl) fun _ => trivial
  | chown path owner group => exact good_chown begins path owner group
  | readlink path buf bufsize => exact good_readlink begins path buf bufsize
  | creat path mode | dup fildes | dup2 fildes fildes2 | fopen pathname mode | chdir path
  | chmod path mode | remove pathname | rename old new | link path1 path2 | unlink path
  | symlink path1 path2 | mkdir path mode | rmdir path =>
    exact .plain begins rfl rfl (fun _ _ => Iff.rfl) (fun _ => rfl) fun _ => trivial
  | vfscanf _ _ _ | vfprintf _ _ _ | dprintf _ _ _ | fileno _ | sprintf _ _ _ | memset _ _ _
  | dirfd _ | getpwuid _ | getgrgid _ => cases own

end UnixProgramming.Fsmon.Proofs
