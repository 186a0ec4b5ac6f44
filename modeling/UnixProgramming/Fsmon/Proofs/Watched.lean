import UnixProgramming.Fsmon.Program
import UnixProgramming.Fsmon.Proofs.Transparent

namespace UnixProgramming.Fsmon.Proofs
open Lib

section Conditions
variable {W : Type} (L : Libc W) (same : W → W → Prop)

/-- The calls by which the monitor names what a call is about, with the buffers of its own. -/
def helper : Call → Prop
  | .sprintf str _ _ => str = L.path
  | .memset s _ _ => s = L.name
  | .readlink _ buf _ => buf = L.name
  | .fileno _ | .dirfd _ | .getpwuid _ | .getgrgid _ => True
  | _ => False

/-- What the caller has of a reply. -/
def reply (c : Call) (w : W) : Value × Option Int := (result L c w, (L.real c w).errno)

/-- Worlds that are the same but for what the monitor has done: its calls lead to one that is, and
get the same replies in both. An argument list that is passed on does what the list itself does. -/
structure Hides : Prop where
  equiv : Equivalence same
  helps : ∀ c w, helper L c → same w (L.real c w).world
  asks : ∀ c w w', helper L c → same w w' → reply L c w = reply L c w'
  reads : ∀ buf w w', same w w' → (L.string buf w).isSome = (L.string buf w').isSome
  passes : ∀ c w, (∀ path oflag, c = .open path oflag [] → ¬oflag &&& O_CREAT = O_CREAT) →
    reply L (passed c) w = reply L c w ∧ same (L.real (passed c) w).world (L.real c w).world

/-- By the call the program cannot tell what the monitor has done, such as what is in the log. -/
def Unseen (c : Call) (w : W) : Prop := ∀ w', same w w' →
  reply L c w = reply L c w' ∧ same (L.real c w).world (L.real c w').world

/-- Lines go to the log, where they are the monitor's, and do not fail. -/
def SinkIn (OUTPUT : Int) (w : W) : Prop := ∀ w' format args, same w w' →
  same w' (L.real (.dprintf OUTPUT format args) w').world ∧
    (L.real (.dprintf OUTPUT format args) w').errno = none

/-- The calls that name what the call is about leave `errno` as the call itself leaves it. -/
def Quiet (c : Call) (s : W × Int) : Prop :=
  ((L.real c s.1).errno = none → Leaves L s.1 s.2 (preludes L c s.1)) ∧
    Leaves L (L.real c s.1).world ((L.real c s.1).errno.getD s.2) (asides L c (L.real c s.1))

/-- The call is one that is watched without harm: what is printed can be read, a mode is passed
where one is read, and the log is neither looked at nor closed. -/
structure Proper (OUTPUT : Int) (s : W × Int) (c : Call) : Prop where
  prints : Prints L s.1 c
  mode : ∀ path oflag, c = .open path oflag [] → ¬oflag &&& O_CREAT = O_CREAT
  unseen : Unseen L same c s.1
  quiet : Quiet L c s
  spared : ∀ stream, c = .fclose stream → (L.real (.fileno stream) s.1).ret ≠ OUTPUT
  sink : SinkIn L same OUTPUT (L.real c s.1).world

end Conditions

/-- The events of a history: each call that is watched goes to libc once, with the result and the
`errno` that the program has, and then to the log. -/
inductive Listing (OUTPUT : Int) : History → List Event → Prop
  | init : Listing OUTPUT [] []
  | own {h events c o format args} : Listing OUTPUT h events → c.name.own = true →
      Listing OUTPUT (h ++ [(c, o)]) (events ++
        [.forward (target c) (passed c) o.value.ret o.errno, .log OUTPUT format args])
  | libc {h events c o} : Listing OUTPUT h events → c.name.own = false →
      Listing OUTPUT (h ++ [(c, o)]) events

section Same
variable {W : Type} {L : Libc W} {same : W → W → Prop} {w w' : W} {cs : List Call} {c : Call}
  {m m' : Machine W}

theorem fdCalls_helper (fd : Int) (w : W) : ∀ c ∈ fdCalls L fd w, helper L c := by
  intro c hc
  unfold fdCalls at hc
  split at hc
  · cases hc
  · simp only [List.mem_cons, List.not_mem_nil, or_false] at hc
    rcases hc with rfl | rfl | rfl <;> rfl

theorem streamCalls_helper (stream : Int) (w : W) : ∀ c ∈ streamCalls L stream w, helper L c := by
  intro c hc
  rcases List.mem_cons.mp hc with rfl | hc
  · trivial
  · exact fdCalls_helper _ _ c hc

theorem dirCalls_helper (dirp : Int) (w : W) : ∀ c ∈ dirCalls L dirp w, helper L c := by
  intro c hc
  rcases List.mem_cons.mp hc with rfl | hc
  · trivial
  · exact fdCalls_helper _ _ c hc

theorem preludes_helper (c : Call) (w : W) : ∀ c' ∈ preludes L c w, helper L c' := by
  cases c with
  | closedir dirp | readdir dirp => exact dirCalls_helper dirp w
  | close fildes => exact fdCalls_helper fildes w
  | fclose stream =>
    intro c hc
    rcases List.mem_append.mp hc with hc | hc
    · exact streamCalls_helper stream w c hc
    · rw [List.mem_singleton.mp hc]
      trivial
  | _ =>
    intro c' hc'
    cases hc'

theorem asides_helper (c : Call) (r : Reply W) : ∀ c' ∈ asides L c r, helper L c' := by
  cases c with
  | read fildes buf nbyte | write fildes buf nbyte | pwrite fildes buf nbyte offset =>
    exact fdCalls_helper fildes r.world
  | fread ptr size nmemb stream | fwrite ptr size nmemb stream | fgetc stream
  | fgets s size stream | fscanf stream format ap | fprintf stream format ap =>
    exact streamCalls_helper stream r.world
  | opendir name => exact dirCalls_helper r.ret r.world
  | chown path owner group =>
    intro c' hc'
    simp only [asides, List.mem_cons, List.not_mem_nil, or_false] at hc'
    rcases hc' with rfl | rfl <;> trivial
  | _ =>
    intro c' hc'
    cases hc'

section Hidden
variable (hides : Hides L same)
include hides

theorem Hides.helped (hcs : ∀ c ∈ cs, helper L c) (w : W) (e : Int) :
    same w (after L (w, e) cs).1 := by
  induction cs generalizing w e with
  | nil => exact hides.equiv.refl w
  | cons c cs ih =>
    rw [after, List.foldl_cons, ← after]
    have hfirst := hides.helps c w (hcs c List.mem_cons_self)
    exact hides.equiv.trans hfirst (ih (fun c hc => hcs c (List.mem_cons_of_mem _ hc)) _ _)

theorem Hides.next (hw : same w w') (hc : helper L c) :
    same (L.real c w).world (L.real c w').world :=
  hides.equiv.trans (hides.equiv.symm (hides.helps c w hc)) (hides.equiv.trans hw
    (hides.helps c w' hc))

theorem Hides.ret (hw : same w w') (hc : helper L c) : (L.real c w).ret = (L.real c w').ret :=
  congrArg (fun r : Value × Option Int => r.1.ret) (hides.asks c w w' hc hw)

/-- The calls of the monitor set `errno` alike in worlds that are the same. -/
theorem Hides.same_lastErrno (hw : same w w') (hcs : ∀ c ∈ cs, helper L c) :
    lastErrno L w cs = lastErrno L w' cs := by
  induction cs generalizing w w' with
  | nil => rfl
  | cons c cs ih =>
    have hc := hcs c List.mem_cons_self
    have herrno : (L.real c w).errno = (L.real c w').errno :=
      congrArg Prod.snd (hides.asks c w w' hc hw)
    rw [lastErrno, lastErrno, herrno,
      ih (hides.next hw hc) fun c hc => hcs c (List.mem_cons_of_mem _ hc)]

theorem Hides.same_fdCalls (hw : same w w') (fd : Int) : fdCalls L fd w = fdCalls L fd w' := by
  have htext : (L.real (.sprintf L.path "/proc/self/fd/%d" [.int fd]) w).text =
      (L.real (.sprintf L.path "/proc/self/fd/%d" [.int fd]) w').text :=
    congrArg (fun r : Value × Option Int => r.1.text)
      (hides.asks (.sprintf L.path "/proc/self/fd/%d" [.int fd]) w w' rfl hw)
  unfold fdCalls
  dsimp only
  rw [htext]

theorem Hides.same_streamCalls (hw : same w w') (stream : Int) :
    streamCalls L stream w = streamCalls L stream w' := by
  have hthere := hides.next (c := .fileno stream) hw trivial
  unfold streamCalls
  dsimp only
  rw [hides.ret (c := .fileno stream) hw trivial, hides.same_fdCalls hthere]

theorem Hides.same_dirCalls (hw : same w w') (dirp : Int) : dirCalls L dirp w = dirCalls L dirp w' := by
  have hthere := hides.next (c := .dirfd dirp) hw trivial
  unfold dirCalls
  dsimp only
  rw [hides.ret (c := .dirfd dirp) hw trivial, hides.same_fdCalls hthere]

theorem Hides.same_preludes (hw : same w w') (c : Call) : preludes L c w = preludes L c w' := by
  cases c with
  | closedir dirp | readdir dirp => exact hides.same_dirCalls hw dirp
  | close fildes => exact hides.same_fdCalls hw fildes
  | fclose stream => exact congrArg (· ++ [.fileno stream]) (hides.same_streamCalls hw stream)
  | _ => rfl

theorem Hides.same_asides {r r' : Reply W} (hr : r.ret = r'.ret) (hw : same r.world r'.world)
    (c : Call) : asides L c r = asides L c r' := by
  cases c with
  | read fildes buf nbyte | write fildes buf nbyte | pwrite fildes buf nbyte offset =>
    exact hides.same_fdCalls hw fildes
  | fread ptr size nmemb stream | fwrite ptr size nmemb stream | fgetc stream
  | fgets s size stream | fscanf stream format ap | fprintf stream format ap =>
    exact hides.same_streamCalls hw stream
  | opendir name =>
    unfold asides
    rw [hr, hides.same_dirCalls hw]
  | _ => rfl

/-- What is printed can be read in all worlds that are the same. -/
theorem Hides.prints (hw : same w w') (unseen : Unseen L same c w) (h : Prints L w c) :
    Prints L w' c := by
  obtain ⟨hreply, hthere⟩ := unseen w' hw
  cases c with
  | opendir name =>
    have hret : (L.real (.opendir name) w).ret = (L.real (.opendir name) w').ret :=
      congrArg (fun r : Value × Option Int => r.1.ret) hreply
    exact fun hnull => h (hret.trans hnull)
  | chown path owner group =>
    have hpwd := hides.ret (c := .getpwuid owner) hthere trivial
    have hgrp := hides.ret (c := .getgrgid group) (hides.next (c := .getpwuid owner) hthere trivial)
      trivial
    exact ⟨fun hnull => h.1 (hpwd.trans hnull), fun hnull => h.2 (hgrp.trans hnull)⟩
  | readlink path buf bufsize => exact (hides.reads buf _ _ hthere).symm.trans h
  | _ => exact h

/-- Before its call a wrapper only makes calls of the monitor, when the log is not closed. -/
theorem Hides.prior (hw : same w m.world)
    (spared : ∀ stream, c = .fclose stream → (L.real (.fileno stream) w).ret ≠ m.OUTPUT)
    (prior : Prior L c m m') : Aside L (preludes L c m.world) m m' := by
  cases c with
  | fclose stream =>
    obtain ⟨m₁, aside, hm'⟩ := prior
    have hthere : same w (after L (m.world, m.errno) (streamCalls L stream m.world)).1 :=
      hides.equiv.trans hw (hides.helped (streamCalls_helper stream m.world) m.world m.errno)
    have hne : (L.real (.fileno stream) (after L (m.world, m.errno)
        (streamCalls L stream m.world)).1).ret ≠ m₁.OUTPUT := by
      rw [aside.OUTPUT, ← hides.ret (c := .fileno stream) hthere trivial]
      exact spared stream rfl
    rw [if_neg hne] at hm'
    rw [hm']
    exact aside
  | closedir dirp | readdir dirp => exact prior.2
  | _ => exact prior

end Hidden

end Same

section Runs
variable {W : Type} {L : Libc W} {same : W → W → Prop} {s : W × Int} {c : Call} {m m' : Machine W}
  {v : Value}

/-- The machine is where the process is that runs without the library. -/
def Alike (same : W → W → Prop) (s : W × Int) (m : Machine W) : Prop :=
  same s.1 m.world ∧ m.errno = s.2

/-- A call that is served: the program has the result and the `errno` that libc would have left. -/
theorem Hides.serves (hides : Hides L same) (hm : Loaded m) (hs : Alike same s m)
    (proper : Proper L same m.OUTPUT s c) (serves : Serves L m c v m') :
    v = (alone L c s).1.value ∧ Alike same (alone L c s).2 m' ∧ m'.OUTPUT = m.OUTPUT ∧
      ∃ format args, m'.trace = m.trace ++ [.forward (target c) (passed c) v.ret
        (alone L c s).1.errno, .log m.OUTPUT format args] := by
  obtain ⟨w, e⟩ := s
  cases serves with
  | @mk m₁ m₂ m₃ format args ready prior keeps aside =>
    have hlibc : m.libc ≠ none := by simp [hm.libc]
    have hOUTPUT := ready.kept hlibc
    have hw₁ : same w m₁.world := by
      rw [ready.world, begun, if_neg hlibc]
      exact hs.1
    have herrno₁ : m₁.errno = e := (ready.errno hlibc).trans hs.2
    rw [← hOUTPUT] at proper
    -- up to the call only the monitor has done something
    have before := hides.prior hw₁ proper.spared prior
    have hw₂ : same w m₂.world := by
      rw [before.world]
      exact hides.equiv.trans hw₁ (hides.helped (preludes_helper c _) _ _)
    have herrno₂ : m₂.errno = (lastErrno L w (preludes L c w)).getD e := by
      rw [before.errno, after_errno, herrno₁, ← hides.same_preludes hw₁,
        ← hides.same_lastErrno hw₁ (preludes_helper c w)]
    -- the call that is passed on gets the reply it would have got
    obtain ⟨hseen, hthere⟩ := proper.unseen _ hw₂
    obtain ⟨hlist, hlists⟩ := hides.passes c m₂.world proper.mode
    have hreply : reply L (passed c) m₂.world = reply L c w := hlist.trans hseen.symm
    have hresult : result L (passed c) m₂.world = result L c w := congrArg Prod.fst hreply
    have herrno : (L.real (passed c) m₂.world).errno = (L.real c w).errno :=
      congrArg Prod.snd hreply
    have hdone : same (L.real c w).world (L.real (passed c) m₂.world).world :=
      hides.equiv.trans hthere (hides.equiv.symm hlists)
    have hcalled : (m₂.called L (passed c)).errno = (L.real c w).errno.getD e := by
      change (L.real (passed c) m₂.world).errno.getD m₂.errno = _
      rw [herrno]
      cases hset : (L.real c w).errno with
      | some x => rfl
      | none =>
        have hleaves := proper.quiet.1 hset
        rw [← leaves_iff, after_errno] at hleaves
        rw [Option.getD_none, Option.getD_none, herrno₂, hleaves]
    -- and so do the calls for the log line behind it
    have hasides := hides.same_asides (congrArg Value.ret hresult.symm) hdone c
    have hw₃ : same (L.real c w).world m₃.world := by
      rw [aside.world]
      exact hides.equiv.trans hdone (hides.helped (asides_helper c _) _ _)
    have herrno₃ : m₃.errno = (L.real c w).errno.getD e := by
      have hleaves := proper.quiet.2
      rw [← leaves_iff, after_errno, hides.same_lastErrno hdone (asides_helper c _), hasides] at hleaves
      rw [aside.errno, after_errno]
      change (lastErrno L (L.real (passed c) m₂.world).world _).getD
        (m₂.called L (passed c)).errno = _
      rw [hcalled, hleaves]
    have hOUTPUT₃ : m₃.OUTPUT = m₁.OUTPUT := aside.OUTPUT.trans before.OUTPUT
    obtain ⟨hline, hsilent⟩ := proper.sink m₃.world format args hw₃
    rw [← hOUTPUT₃] at hline hsilent
    refine ⟨hresult, ⟨hides.equiv.trans hw₃ hline, ?_⟩, hOUTPUT₃.trans hOUTPUT, format, args, ?_⟩
    · change (L.real (.dprintf m₃.OUTPUT format args) m₃.world).errno.getD m₃.errno = _
      rw [hsilent]
      exact herrno₃
    · rw [logged_trace format args ready keeps aside, hcalled, hOUTPUT₃, hOUTPUT]
      rfl

/-- One call of the program. -/
theorem Hides.call (hides : Hides L same) (depth : Nat) (hm : Loaded m) (hs : Alike same s m)
    (proper : Proper L same m.OUTPUT s c) :
    ∃ m', invoke L (depth + 1) c m = .ok (alone L c s).1.value m' ∧ Loaded m' ∧
      Alike same (alone L c s).2 m' ∧ m'.OUTPUT = m.OUTPUT ∧
      ∀ h, Listing m.OUTPUT h m.trace → Listing m.OUTPUT (h ++ [(c, (alone L c s).1)]) m'.trace := by
  have hlibc : m.libc ≠ none := by simp [hm.libc]
  cases hown : c.name.own with
  | true =>
    have hbegun : begun L m = m.world := if_neg hlibc
    have hprints : Prints L (begun L m) c := by
      rw [hbegun]
      exact hides.prints hs.1 proper.unseen proper.prints
    have hgood : Good L c m (wrapper L (invoke L depth) c) :=
      good_wrapper (.inr hm) hown fun _ => hlibc
    obtain ⟨v, m', hok, hserves, -⟩ := Wp.returns (hgood.mono (fun _ _ h => h)
      (fun _ _ he => he hprints)) fun _ _ he => he
    obtain ⟨rfl, hs', hOUTPUT, format, args, htrace⟩ := hides.serves hm hs proper hserves
    refine ⟨m', hok, hserves.loaded, hs', hOUTPUT, fun h hlisting => ?_⟩
    rw [htrace]
    exact hlisting.own hown
  | false =>
    have hcall : invoke L (depth + 1) c = libcCall L c := by
      cases c <;> first | rfl | cases hown
    obtain ⟨hreply, hworld⟩ := proper.unseen _ hs.1
    have herrno : (L.real c s.1).errno = (L.real c m.world).errno := congrArg Prod.snd hreply
    have hresult : result L c s.1 = result L c m.world := congrArg Prod.fst hreply
    refine ⟨m.called L c, ?_, ⟨hm.libc, hm.util, hm.cached, hm.tooled⟩, ⟨hworld, ?_⟩, rfl,
      fun h hlisting => hlisting.libc hown⟩
    · rw [hcall]
      exact congrArg (EStateM.Result.ok · (m.called L c)) hresult.symm
    · change (L.real c m.world).errno.getD m.errno = (L.real c s.1).errno.getD s.2
      rw [herrno, hs.2]

/-- A run of the program without the library and one with it, from where these are alike. -/
theorem Hides.run {prog : Program} (hides : Hides L same) (depth n : Nat) (h : History)
    (hm : Loaded m) (hs : Alike same s m) (listing : Listing m.OUTPUT h m.trace)
    (proper : ∀ x ∈ callsAlone L prog n h s, Proper L same m.OUTPUT x.1 x.2) :
    ∃ m', runWatched L prog (depth + 1) n h m = some ((runAlone L prog n h s).1, m') ∧
      Alike same (runAlone L prog n h s).2 m' ∧
      Listing m.OUTPUT (runAlone L prog n h s).1 m'.trace := by
  induction n generalizing h s m with
  | zero => exact ⟨m, rfl, hs, listing⟩
  | succ n ih =>
    rw [runWatched, runAlone]
    rw [callsAlone] at proper
    cases hnext : prog h with
    | none => exact ⟨m, rfl, hs, listing⟩
    | some c =>
      rw [hnext] at proper
      obtain ⟨m', hok, hm', hs', hOUTPUT, hlisting⟩ :=
        hides.call depth hm hs (proper _ List.mem_cons_self)
      have hlist := hlisting h listing
      rw [← hOUTPUT] at hlist proper ⊢
      dsimp only
      rw [hok]
      dsimp only
      rw [hs'.2]
      exact ih _ hm' hs' hlist fun x hx => proper x (List.mem_cons_of_mem _ hx)

end Runs

section Kernel
variable {K : Kernel} {f : Nat} {p p' : Proc} {c : Call} {l : List Nat}

/-- The lines that are not in the open file `f`. -/
def elsewhere (f : Nat) (l : List Nat) : List Nat := l.filter (· ≠ f)

/-- The answers of the kernel depend neither on the lines in `f` nor on the form of an argument
list. They may depend on lines in all other files. -/
structure Blind (K : Kernel) (f : Nat) : Prop where
  refuses : ∀ c p l, elsewhere f l = elsewhere f p.written →
    K.refuses c { p with written := l } = K.refuses c p
  error : ∀ c p l, elsewhere f l = elsewhere f p.written →
    K.error c { p with written := l } = K.error c p
  other : ∀ c p l, elsewhere f l = elsewhere f p.written →
    K.other c { p with written := l } = K.other c p
  string : ∀ buf p l, elsewhere f l = elsewhere f p.written →
    K.string buf { p with written := l } = K.string buf p
  lists : ∀ c p, (∀ path oflag, c = .open path oflag [] → ¬oflag &&& O_CREAT = O_CREAT) →
    K.refuses (passed c) p = K.refuses c p ∧ K.error (passed c) p = K.error c p ∧
      K.other (passed c) p = K.other c p

/-- The same process but for the lines in `f`. -/
def SameBut (f : Nat) (p p' : Proc) : Prop :=
  ∃ l, elsewhere f l = elsewhere f p.written ∧ p' = { p with written := l }

theorem sameBut_equivalence (f : Nat) : Equivalence (SameBut f) where
  refl p := ⟨p.written, rfl, rfl⟩
  symm := by
    rintro p p' ⟨l, hl, rfl⟩
    exact ⟨p.written, hl.symm, rfl⟩
  trans := by
    rintro p p' p'' ⟨l, hl, rfl⟩ ⟨l', hl', rfl⟩
    exact ⟨l', hl'.trans hl, rfl⟩

theorem Blind.place (blind : Blind K f) (c : Call) (p : Proc)
    (hl : elsewhere f l = elsewhere f p.written) :
    K.place { p with written := l } c = K.place p c := by
  have hrefuses := fun c => blind.refuses c p l hl
  cases c with
  | «open» | creat | fopen => simp [Kernel.place, hrefuses, Proc.lowest]
  | dup | dup2 => simp [Kernel.place, Proc.lowest, Proc.fileAt]
  | _ => rfl

/-- No call tells the lines in `f` apart. -/
theorem Blind.unseen (blind : Blind K f) (c : Call) (p : Proc) :
    Unseen K.libc (SameBut f) c p := by
  rintro _ ⟨l, hl, rfl⟩
  have hplace := fun c => blind.place c p hl
  have herror := fun c => blind.error c p l hl
  have hother := fun c => blind.other c p l hl
  have hclose : ∀ c fd, (K.closeAt { p with written := l } c fd).ret = (K.closeAt p c fd).ret ∧
      (K.closeAt { p with written := l } c fd).text = (K.closeAt p c fd).text ∧
      (K.closeAt { p with written := l } c fd).errno = (K.closeAt p c fd).errno ∧
      (K.closeAt { p with written := l } c fd).world =
        { (K.closeAt p c fd).world with written := l } ∧
      (K.closeAt p c fd).world.written = p.written := by
    intro c fd
    have hfile : Proc.fileAt { p with written := l } fd = p.fileAt fd := rfl
    unfold Kernel.closeAt
    rw [hfile]
    split
    · simp [Kernel.fail, herror]
    · simp [Proc.put]
  change (⟨⟨(K.real c p).ret, (K.real c p).text⟩, (K.real c p).errno⟩ : Value × Option Int) =
    ⟨⟨(K.real c { p with written := l }).ret, (K.real c { p with written := l }).text⟩,
      (K.real c { p with written := l }).errno⟩ ∧
    SameBut f (K.real c p).world (K.real c { p with written := l }).world
  cases c with
  | «open» | creat | dup | dup2 | fopen =>
    simp only [Kernel.real, hplace]
    split
    · exact ⟨by simp [Kernel.fail, herror], l, hl, rfl⟩
    · exact ⟨rfl, l, hl, rfl⟩
  | close fildes =>
    obtain ⟨hret, htext, herrno, hworld, hkept⟩ := hclose (.close fildes) fildes
    simp only [Kernel.real, hret, htext, herrno, hworld, true_and]
    exact ⟨l, by rw [hkept, hl], rfl⟩
  | fclose stream =>
    simp only [Kernel.real]
    split
    · exact ⟨by simp [Kernel.fail, herror], l, hl, rfl⟩
    · rename_i fd _
      obtain ⟨hret, htext, herrno, hworld, hkept⟩ := hclose (.fclose stream) fd
      simp only [hret, htext, herrno, hworld, true_and]
      exact ⟨l, by simp [hkept, hl], rfl⟩
  | fileno stream =>
    simp only [Kernel.real]
    split
    · exact ⟨by simp [Kernel.fail, herror], l, hl, rfl⟩
    · exact ⟨rfl, l, hl, rfl⟩
  | dprintf fd format args =>
    have hfile : Proc.fileAt { p with written := l } fd = p.fileAt fd := rfl
    simp only [Kernel.real, hfile, hother]
    split
    · exact ⟨by simp [Kernel.fail, herror], l, hl, rfl⟩
    · rename_i g _
      have happ : elsewhere f (l ++ [g]) = elsewhere f (p.written ++ [g]) := by
        simpa [elsewhere] using hl
      exact ⟨rfl, l ++ [g], happ, rfl⟩
  | _ =>
    simp only [Kernel.real, hother, true_and]
    exact ⟨l, hl, rfl⟩

/-- The call with its argument list passed on does the same. -/
theorem Blind.passes (blind : Blind K f) (c : Call) (p : Proc)
    (mode : ∀ path oflag, c = .open path oflag [] → ¬oflag &&& O_CREAT = O_CREAT) :
    reply K.libc (passed c) p = reply K.libc c p ∧
      SameBut f (K.libc.real (passed c) p).world (K.libc.real c p).world := by
  obtain ⟨hrefuses, herror, hother⟩ := blind.lists c p mode
  cases c with
  | fscanf stream format ap | fprintf stream format ap =>
    simp only [passed] at hother
    simp only [reply, result, Kernel.libc, Kernel.real, passed, hother, true_and]
    exact (sameBut_equivalence f).refl p
  | «open» path oflag ap =>
    have hplace : K.place p (passed (.open path oflag ap)) = K.place p (.open path oflag ap) := by
      change (if K.refuses (passed (.open path oflag ap)) p then none else _) = if _ then _ else _
      rw [hrefuses]
    simp only [passed] at hplace herror
    simp only [reply, result, Kernel.libc, Kernel.real, passed, hplace]
    split
    · exact ⟨by simp [Kernel.fail, herror], (sameBut_equivalence f).refl p⟩
    · exact ⟨rfl, (sameBut_equivalence f).refl _⟩
  | _ => exact ⟨rfl, (sameBut_equivalence f).refl _⟩

theorem helper_world (hc : helper K.libc c) (p : Proc) : (K.libc.real c p).world = p := by
  cases c with
  | sprintf | memset | readlink | fileno => exact idle_world rfl p
  | dirfd | getpwuid | getgrgid => rfl
  | _ => cases hc

/-- On a table of descriptors the monitor is hidden by the file of its log. -/
theorem Blind.hides (blind : Blind K f) : Hides K.libc (SameBut f) where
  equiv := sameBut_equivalence f
  helps c p hc := by
    rw [helper_world hc]
    exact (sameBut_equivalence f).refl p
  asks c p p' _ hp := (blind.unseen c p p' hp).1
  reads := by
    rintro buf p _ ⟨l, hl, rfl⟩
    change (K.string buf p).isSome = (K.string buf { p with written := l }).isSome
    rw [blind.string buf p l hl]
  passes c p mode := blind.passes c p mode

end Kernel

section Demo

end Demo

end UnixProgramming.Fsmon.Proofs
