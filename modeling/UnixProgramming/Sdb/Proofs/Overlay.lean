import UnixProgramming.Sdb.Proofs.Lifetime
import UnixProgramming.Sdb.Proofs.Store

namespace UnixProgramming.Sdb.Proofs
open Lib

section Writes
variable {η : Type} {T : Isa η} {c c' c'' : Child η} {s : List Word} {v : Byte} {x : Word}

/-- From `c` to `c'` memory and image changed by the same writes, all of them recorded. -/
def Wrote (c c' : Child η) : Prop := ∃ wrote : Word → Option Byte,
  c'.mem = putAll wrote c.mem ∧ c'.image = putAll wrote c.image ∧
    ∀ x, c'.written x = ((wrote x).isSome || c.written x)

theorem Wrote.refl (c : Child η) : Wrote c c := ⟨fun _ => none, rfl, rfl, fun _ => rfl⟩

theorem Wrote.trans (h : Wrote c c') (h' : Wrote c' c'') : Wrote c c'' := by
  obtain ⟨f, hm, hi, hw⟩ := h
  obtain ⟨g, hm', hi', hw'⟩ := h'
  have hput : ∀ m : Memory 64, putAll g (putAll f m) = putAll (fun x => (g x).or (f x)) m := by
    intro m
    funext x
    simp only [putAll]
    cases g x <;> rfl
  refine ⟨fun x => (g x).or (f x), by rw [hm', hm, hput], by rw [hi', hi, hput], ?_⟩
  intro x
  rw [hw', hw, Option.isSome_or, Bool.or_assoc]

/-- A byte not written at the end was not written on the way. -/
theorem Wrote.spared (h : Wrote c c') (hx : c'.written x = false) :
    c.written x = false ∧ c'.mem x = c.mem x ∧ c'.image x = c.image x := by
  obtain ⟨wrote, hm, hi, hw⟩ := h
  rw [hw, Bool.or_eq_false_iff, Option.isSome_eq_false_iff, Option.isNone_iff_eq_none] at hx
  rw [hm, hi, putAll, putAll, hx.1]
  exact ⟨hx.2, rfl, rfl⟩

/-- Writes elsewhere do not disturb an overlay. -/
theorem Wrote.overlay (h : Wrote c c') (hm : c.mem = overlay c.image s v)
    (spared : ∀ x ∈ s, c'.written x = false) : c'.mem = overlay c'.image s v := by
  apply eq_overlay
  · intro x hx
    rw [(h.spared (spared x hx)).2.1, hm, overlay_mem hx]
  · intro x hx
    obtain ⟨wrote, hm', hi', _⟩ := h
    rw [hm', hi', putAll, putAll, hm, overlay_not_mem hx]

theorem step_wrote (h : c.step T = .on c') : Wrote c c' := by
  unfold Child.step at h
  split at h
  · cases h
  · split at h
    · cases h
      exact ⟨_, rfl, rfl, fun _ => rfl⟩
    · cases h
    · cases h
    · cases h

theorem step_stop_wrote {sig : Signal} (h : c.step T = .halted (.stop sig c')) : Wrote c c' := by
  unfold Child.step at h
  split at h
  · cases h
    exact .refl c
  · split at h
    · cases h
    · cases h
      exact ⟨_, rfl, rfl, fun _ => rfl⟩
    · cases h
    · cases h

theorem run_wrote {n : Nat} {sig : Signal} (h : c.run T n = some (.stop sig c')) : Wrote c c' := by
  induction n generalizing c with
  | zero => cases h
  | succ n ih =>
    unfold Child.run at h
    cases hs : c.step T with
    | on c₁ =>
      rw [hs] at h
      exact (step_wrote hs).trans (ih h)
    | halted e =>
      rw [hs] at h
      cases h
      exact step_stop_wrote hs

theorem go_wrote {fuel : Nat} {how : Resume} {sig : Signal}
    (h : c.go T fuel how = some (.stop sig c')) : Wrote c c' := by
  cases how with
  | cont => exact run_wrote h
  | singlestep =>
    unfold Child.go at h
    cases hs : c.step T with
    | on c₁ =>
      rw [hs] at h
      cases h
      exact step_wrote hs
    | halted e =>
      rw [hs] at h
      cases h
      exact step_stop_wrote hs

end Writes

section Armed
variable {η : Type} {c c' : Child η} {d : Debugger} {b : BreakPt} {bp : List BreakPt}
  {image m : Memory 64} {s : List Word} {a : Word}

/-- Memory is `image` with `0xcc` over the breakpoints, and the low byte of each saved
word is the image's. -/
structure Armed (bp : List BreakPt) (image m : Memory 64) : Prop where
  mem : m = overlay image (bp.map (·.addr)) 0xcc
  code : ∀ b ∈ bp, byteOf b.code 0 = image b.addr

/-- Behind its first byte the saved word of `b` is what memory holds. -/
def Intact (b : BreakPt) (m : Memory 64) : Prop :=
  ∀ i, 0 < i → i < 8 → byteOf b.code i = m (b.addr + BitVec.ofNat 64 i)

theorem Intact.store (h : Intact b m) (x : Word) :
    store 8 m b.addr b.code x = if x = b.addr then byteOf b.code 0 else m x := by
  by_cases hx : x = b.addr
  · rw [if_pos hx, hx, store_inside _ _ _ (by simp), offset_self]
  · rw [if_neg hx]
    by_cases ho : offset b.addr x < 8
    · have hpos : 0 < offset b.addr x :=
        Nat.pos_of_ne_zero fun h0 => hx (eq_of_offset_zero h0)
      rw [store_inside _ _ _ ho, h _ hpos ho, add_offset]
    · exact store_outside _ _ _ (by omega)

/-- Writing an intact word back takes its own `0xcc` away and nothing else. -/
theorem Armed.unpatch (h : Armed bp image m) (hb : b ∈ bp) (intact : Intact b m) :
    Lib.store 8 m b.addr b.code =
      overlay image ((bp.map (·.addr)).filter (· ≠ b.addr)) 0xcc := by
  apply eq_overlay
  · intro x hx
    obtain ⟨hm, hne⟩ := List.mem_filter.mp hx
    rw [intact.store, if_neg (by simpa using hne), h.mem, overlay_mem hm]
  · intro x hx
    rw [intact.store]
    by_cases he : x = b.addr
    · rw [if_pos he, he, h.code b hb]
    · have hm : x ∉ bp.map (·.addr) := fun hm => hx (List.mem_filter.mpr ⟨hm, by simpa using he⟩)
      rw [if_neg he, h.mem, overlay_not_mem hm]

theorem Armed.wrote (h : Armed bp c.image c.mem) (hw : Wrote c c')
    (spared : ∀ b ∈ bp, c'.written b.addr = false) : Armed bp c'.image c'.mem where
  mem := hw.overlay h.mem fun x hx => by
    obtain ⟨b, hb, he⟩ := List.mem_map.mp hx
    exact he ▸ spared b hb
  code := fun b hb => (h.code b hb).trans (hw.spared (spared b hb)).2.2.symm

theorem Armed.placed (h : Armed bp image m) {target : Word} (id : BitVec 32)
    (fresh : target ∉ bp.map (·.addr)) :
    Armed (bp ++ [⟨id, target, load 8 m target⟩]) image (arm m target) where
  mem := by rw [arm_eq, h.mem, overlay_overlay, List.map_append, List.map_singleton]
  code := by
    intro b hb
    rcases List.mem_append.mp hb with hb | hb
    · exact h.code b hb
    · rw [List.mem_singleton.mp hb]
      have hl : byteOf (load 8 m target) 0 = m (target + BitVec.ofNat 64 0) :=
        byteOf_load m target (by omega)
      dsimp only
      rw [hl, BitVec.add_zero, h.mem, overlay_not_mem fresh]

/-- Deleting a breakpoint whose word is intact leaves the others armed. -/
theorem Armed.removed {pre post : List BreakPt} (h : Armed (pre ++ b :: post) image m)
    (distinct : ((pre ++ b :: post).map (·.addr)).Nodup) (intact : Intact b m) :
    Armed (pre ++ post) image (Lib.store 8 m b.addr b.code) where
  mem := by
    have hb : b ∈ pre ++ b :: post := List.mem_append_right pre List.mem_cons_self
    rw [h.unpatch hb intact]
    apply overlay_congr
    intro x
    rw [List.map_append, List.map_cons] at distinct
    obtain ⟨hnot, _⟩ := List.nodup_cons.mp (List.nodup_middle.mp distinct)
    rw [List.mem_filter, List.map_append, List.map_cons, List.mem_append, List.mem_cons,
      List.map_append, List.mem_append]
    constructor
    · intro hx
      obtain ⟨hx, hne⟩ := hx
      rcases hx with hx | hx | hx
      · exact .inl hx
      · exact absurd hx (by simpa using hne)
      · exact .inr hx
    · intro hx
      have hne : x ≠ b.addr := by
        intro he
        subst he
        exact hnot (List.mem_append.mpr hx)
      refine ⟨?_, by simpa using hne⟩
      rcases hx with hx | hx
      · exact .inl hx
      · exact .inr (.inr hx)
  code := by
    intro b' hb'
    apply h.code b'
    rcases List.mem_append.mp hb' with hb' | hb'
    · exact List.mem_append_left _ hb'
    · exact List.mem_append_right _ (List.mem_cons_of_mem _ hb')

@[simp] theorem rewind_mem (d : Debugger) (c : Child η) : (rewind d c).mem = c.mem := by
  unfold rewind
  split <;> rfl

@[simp] theorem rewind_image (d : Debugger) (c : Child η) : (rewind d c).image = c.image := by
  unfold rewind
  split <;> rfl

@[simp] theorem rewind_written (d : Debugger) (c : Child η) :
    (rewind d c).written = c.written := by
  unfold rewind
  split <;> rfl

@[simp] theorem rearmed_image (d : Debugger) (a : Word) (c : Child η) :
    (rearmed d a c).image = c.image := by
  unfold rearmed
  split <;> rfl

@[simp] theorem rearmed_written (d : Debugger) (a : Word) (c : Child η) :
    (rearmed d a c).written = c.written := by
  unfold rearmed
  split <;> rfl

@[simp] theorem lifted_image (d : Debugger) (c : Child η) : (lifted d c).image = c.image := by
  unfold lifted
  split <;> rfl

theorem underRip_some (h : underRip d c = some b) :
    b ∈ d.bp ∧ b.addr = c.regs .rip := by
  obtain ⟨i, hf, hb⟩ := Option.bind_eq_some_iff.mp h
  obtain ⟨b', hb', ha⟩ := bpFind_some hf
  rw [hb] at hb'
  cases hb'
  exact ⟨List.mem_of_getElem? hb, ha⟩

theorem underRip_none (h : underRip d c = none) : c.regs .rip ∉ d.bp.map (·.addr) := by
  rw [← bpFind_none]
  cases hf : d.bpFindByAddr (c.regs .rip) with
  | none => rfl
  | some i =>
    obtain ⟨b, hb, _⟩ := bpFind_some hf
    simp [underRip, hf, hb] at h

theorem filter_other (h : a ∉ s) : s.filter (· ≠ a) = s := by
  apply List.filter_eq_self.mpr
  intro x hx
  exact decide_eq_true fun he => h (he ▸ hx)

/-- For the instruction at `rip` the breakpoint there is lifted and all others stay. -/
theorem Armed.lifted_mem (h : Armed d.bp image c.mem)
    (intact : ∀ b, underRip d c = some b → Intact b c.mem) :
    (lifted d c).mem = overlay image ((d.bp.map (·.addr)).filter (· ≠ c.regs .rip)) 0xcc := by
  cases hu : underRip d c with
  | none =>
    have hl : lifted d c = c := by simp [lifted, hu]
    rw [hl, filter_other (underRip_none hu)]
    exact h.mem
  | some b =>
    obtain ⟨hb, ha⟩ := underRip_some hu
    have hl : lifted d c = { c with mem := Lib.store 8 c.mem b.addr b.code } := by
      simp [lifted, hu]
    rw [hl, ← ha]
    exact h.unpatch hb (intact b hu)

theorem rearmed_mem (h : c.mem = overlay image ((d.bp.map (·.addr)).filter (· ≠ a)) 0xcc) :
    (rearmed d a c).mem = overlay image (d.bp.map (·.addr)) 0xcc := by
  cases hf : d.bpFindByAddr a with
  | none =>
    have hr : rearmed d a c = c := by simp [rearmed, hf]
    rw [hr, h, filter_other (bpFind_none.mp hf)]
  | some i =>
    have hm : a ∈ d.bp.map (·.addr) := by
      obtain ⟨b, hb, ha⟩ := bpFind_some hf
      exact List.mem_map.mpr ⟨b, List.mem_of_getElem? hb, ha⟩
    have hr : rearmed d a c = { c with mem := arm c.mem a } := by simp [rearmed, hf]
    rw [hr]
    dsimp only
    rw [arm_eq, h, overlay_overlay]
    apply overlay_congr
    intro x
    rw [List.mem_append, List.mem_filter, List.mem_singleton]
    constructor
    · intro hx
      rcases hx with ⟨hx, _⟩ | hx
      · exact hx
      · exact hx ▸ hm
    · intro hx
      by_cases he : x = a
      · exact .inr he
      · exact .inl ⟨hx, decide_eq_true he⟩

/-- A step keeps all breakpoints armed, the one it lifts for its instruction included. -/
theorem Armed.step {T : Isa η} {fuel : Nat} {sig : Signal} (h : Armed d.bp c.image c.mem)
    (intact : ∀ b, underRip d c = some b → Intact b c.mem)
    (hgo : (lifted d c).go T fuel .singlestep = some (.stop sig c'))
    (spared : ∀ b ∈ d.bp, c'.written b.addr = false) :
    Armed d.bp c'.image (rearmed d (c.regs .rip) (rewind d c')).mem := by
  have hw := go_wrote hgo
  have hl := h.lifted_mem intact
  rw [← lifted_image d c] at hl
  have hm := hw.overlay hl ?_
  · constructor
    · apply rearmed_mem
      rw [rewind_mem]
      exact hm
    · intro b hb
      rw [h.code b hb, (hw.spared (spared b hb)).2.2, lifted_image]
  · intro x hx
    obtain ⟨b, hb, he⟩ := List.mem_map.mp (List.mem_filter.mp hx).1
    exact he ▸ spared b hb

end Armed

section Runs
variable {η : Type} {T : Isa η} {fuel : Nat} {B : Host (Machine η)} {w w' : World (Machine η)}
  {i : Input (Machine η)} {c c' : Child η}

/-- The breakpoint whose saved word the command writes back to memory. -/
def writesBack {σ : Type} (H : Host σ) (d : Debugger) (i : Input σ) (c : Child η) :
    Option BreakPt :=
  match command H i with
  | some .si | some .cont => underRip d c
  | some .delete => (removed d (arguments i)).map (·.1)
  | _ => none

/-- Nothing outside touches the child, the child writes no byte that has a breakpoint, and
each saved word that is written back is intact. -/
structure Undisturbed (H : Host (Machine η)) (w : World (Machine η)) (i : Input (Machine η))
    (w' : World (Machine η)) : Prop where
  outside : ∀ move, i = .outside move →
    (move w.os).proc = w.os.proc ∧ (move w.os).pid = w.os.pid
  spares : ∀ c, Live w' c → ∀ b ∈ w'.dbg.bp, c.written b.addr = false
  intact : ∀ c b, Live w c → writesBack H w.dbg i c = some b → Intact b c.mem

structure OverlayInv (w : World (Machine η)) : Prop where
  tracked : Tracked w
  distinct : (w.dbg.bp.map (·.addr)).Nodup
  armed : ∀ c, Live w c → Armed w.dbg.bp c.image c.mem

theorem nodup_shift {l : List Word} (h : l.Nodup) (base : Word) : (l.map (· + base)).Nodup := by
  apply h.map
  intro a b hab
  simpa using hab

theorem stopRecord_distinct {d d' : Debugger} (h : stopRecord d = some d')
    (distinct : (d.bp.map (·.addr)).Nodup) : (d'.bp.map (·.addr)).Nodup := by
  unfold stopRecord at h
  cases hs : d.stat with
  | init =>
    rw [hs] at h
    cases h
    exact distinct
  | loaded =>
    rw [hs] at h
    cases h
    exact distinct
  | running =>
    rw [hs] at h
    obtain ⟨ptext, _, hd⟩ := Option.map_eq_some_iff.mp h
    subst hd
    split
    · have hn := nodup_shift distinct (-d.base)
      simpa [Debugger.unbase, Debugger.stopped, Function.comp_def, BitVec.sub_eq_add_neg] using hn
    · exact distinct

theorem Waited.distinct {f : Child η → Child η} {e : Halted η} (h : Waited w f e w')
    (distinct : (w.dbg.bp.map (·.addr)).Nodup) : (w'.dbg.bp.map (·.addr)).Nodup := by
  cases h with
  | stop s c w' dbg os calls => rw [dbg]; exact distinct
  | exit code w' dbg os calls => exact stopRecord_distinct dbg distinct
  | killed s dumped w' dbg os calls => rw [dbg]; exact distinct

theorem Conted.distinct (h : Conted T fuel w c w')
    (distinct : (w.dbg.bp.map (·.addr)).Nodup) : (w'.dbg.bp.map (·.addr)).Nodup := by
  obtain ⟨s, c₁, w₁, e, _, hw₁, _, hw'⟩ := h
  exact hw'.distinct (hw₁.distinct distinct)

theorem rebased_distinct {l : List BreakPt} (distinct : (l.map (·.addr)).Nodup) (base : Word) :
    (l.map (·.addr + base)).Nodup := by
  have hn := nodup_shift distinct base
  rwa [List.map_map] at hn

theorem Started.distinct (h : Started T B w w')
    (distinct : (w.dbg.bp.map (·.addr)).Nodup) : (w'.dbg.bp.map (·.addr)).Nodup := by
  cases h with
  | failed w' spawn dbg os calls => rw [dbg]; exact distinct
  | ended pid fate st w' spawn dead dbg os calls => rw [dbg]; exact distinct
  | ready pid regs hidden image ptext base w' spawn text bias dbg os calls =>
    rw [dbg]
    dsimp only
    rw [rebased_addrs]
    exact rebased_distinct distinct base

theorem turn_distinct (turn : Turn T fuel B w i w')
    (distinct : (w.dbg.bp.map (·.addr)).Nodup) : (w'.dbg.bp.map (·.addr)).Nodup := by
  cases turn with
  | outside move input effect => rw [effect]; exact distinct
  | calm same =>
    have hb := congrArg Debugger.bp (calm_eq same).1
    dsimp only at hb
    rw [hb]
    exact distinct
  | set c regs live running same =>
    rw [(core_eq same).1]
    exact distinct
  | stepped c e live running found step waited => exact waited.distinct distinct
  | conted c live running found conted => exact conted.distinct distinct
  | started loaded started => exact started.distinct distinct
  | ran loaded w₁ c started live running free conted =>
    exact conted.distinct (started.distinct distinct)
  | placed target code accepted dbg os saved calls =>
    rw [dbg, List.map_append, List.nodup_append]
    refine ⟨distinct, by simp, ?_⟩
    intro a ha x hx
    rw [List.map_singleton, List.mem_singleton] at hx
    intro he
    rw [he, hx] at ha
    exact accepted_fresh accepted ha
  | removed b bp found removed dbg os calls =>
    obtain ⟨pre, post, hsplit, hrest⟩ := removed_split removed
    rw [dbg]
    dsimp only
    rw [hrest]
    rw [hsplit] at distinct
    exact distinct.sublist (((List.sublist_cons_self b post).append_left pre).map _)
  | loaded idle bp os calls =>
    rcases bp with hb | hb
    · rw [hb]
      exact distinct
    · rw [hb]
      exact List.nodup_nil

theorem Waited.gone {f : Child η → Child η} {e : Halted η} (h : Waited w f e w')
    (ended : ∀ s c, e ≠ .stop s c) : w'.os.proc = none := by
  cases h with
  | stop s c w' dbg os calls => exact absurd rfl (ended s c)
  | exit code w' dbg os calls => rw [os]
  | killed s dumped w' dbg os calls => rw [os]

/-- The child found after a wait is the one that stopped. -/
theorem Waited.child {f : Child η → Child η} {e : Halted η} (h : Waited w f e w')
    (pid : w.dbg.pid = w.os.pid) (live : Live w' c') :
    ∃ s c, e = .stop s c ∧ c' = f c ∧ w'.dbg.bp = w.dbg.bp := by
  cases e with
  | stop s c =>
    have hd := h.stopped_record
    exact ⟨s, c, rfl, (h.live pid).unique live, by rw [hd]⟩
  | exit code => exact absurd (h.gone (by simp)) live.not_gone
  | killed s dumped => exact absurd (h.gone (by simp)) live.not_gone

theorem Conted.armed (h : Conted T fuel w c w') (live : Live w c) (armed : Armed w.dbg.bp c.image c.mem)
    (intact : ∀ b, underRip w.dbg c = some b → Intact b c.mem) (live' : Live w' c')
    (spared : ∀ b ∈ w'.dbg.bp, c'.written b.addr = false) : Armed w'.dbg.bp c'.image c'.mem := by
  obtain ⟨s, c₁, w₁, e, hgo, hw₁, hgo', hw'⟩ := h
  obtain ⟨s₂, c₂, he, hc', hbp⟩ := hw'.child (hw₁.live live.pid).pid live'
  subst he hc'
  have hbp₁ : w₁.dbg.bp = w.dbg.bp := by rw [hw₁.stopped_record]
  rw [hbp, hbp₁] at spared ⊢
  rw [rewind_written] at spared
  have hw := go_wrote hgo'
  have spared₁ : ∀ b ∈ w.dbg.bp, c₁.written b.addr = false := by
    intro b hb
    have hb₁ := (hw.spared (spared b hb)).1
    rwa [rearmed_written, rewind_written] at hb₁
  have harm := armed.step intact hgo spared₁
  rw [rewind_image, rewind_mem]
  refine Armed.wrote ?_ hw spared
  rw [rearmed_image, rewind_image]
  exact harm

theorem Started.armed (h : Started T B w w') (gone : w.os.proc = none)
    (distinct : (w.dbg.bp.map (·.addr)).Nodup) (live : Live w' c) :
    Armed w'.dbg.bp c.image c.mem := by
  cases h with
  | failed w' spawn dbg os calls => exact absurd (by rw [os]; exact gone) live.not_gone
  | ended pid fate st w' spawn dead dbg os calls => exact absurd (by rw [os]) live.not_gone
  | ready pid regs hidden image ptext base w' spawn text bias dbg os calls =>
    have hp := live.proc
    rw [os] at hp
    cases hp
    rw [dbg]
    refine ⟨?_, ?_⟩
    · dsimp only
      rw [rebased_addrs]
      rfl
    · exact rebased_code image (rebased_distinct distinct base)

/-- The child behind a poke is the one before it. -/
theorem poked_child {f : Child η → Child η} (hp : poked f w w') (live' : Live w' c') :
    ∃ c, Live w c ∧ c' = f c := by
  rcases hp with ⟨gone, os⟩ | ⟨c, live, os⟩
  · exact absurd (by rw [os]; exact gone) live'.not_gone
  · have hp := live'.proc
    rw [os] at hp
    cases hp
    exact ⟨c, live, rfl⟩

theorem turn_armed (turn : Turn T fuel B w i w') (inv : OverlayInv w)
    (undisturbed : Undisturbed (machineHost T fuel B) w i w') (live' : Live w' c') :
    Armed w'.dbg.bp c'.image c'.mem := by
  have spared := undisturbed.spares c' live'
  cases turn with
  | outside move input effect =>
    obtain ⟨hproc, hpid⟩ := undisturbed.outside move input
    subst effect
    refine inv.armed c' ⟨hproc.symm.trans live'.proc, ?_⟩
    rw [← hpid]
    exact live'.pid
  | calm same =>
    obtain ⟨hd, ho, _⟩ := calm_eq same
    have hb := congrArg Debugger.bp hd
    dsimp only at hb
    rw [hb]
    refine inv.armed c' ⟨ho ▸ live'.proc, ?_⟩
    rw [← calm_pid same, ← ho]
    exact live'.pid
  | set c regs live running same =>
    obtain ⟨hd, ho, _⟩ := core_eq same
    have hp := live'.proc
    rw [ho] at hp
    cases hp
    rw [hd]
    exact inv.armed c live
  | stepped c e live running found step waited =>
    obtain ⟨s, c₁, he, hc', hbp⟩ := waited.child live.pid live'
    subst he hc'
    rw [hbp] at spared ⊢
    rw [rearmed_image, rewind_image]
    refine (inv.armed c live).step ?_ step ?_
    · exact fun b hu => undisturbed.intact c b live (by simp [writesBack, found, hu])
    · intro b hb
      simpa using spared b hb
  | conted c live running found conted =>
    refine conted.armed live (inv.armed c live) ?_ live' spared
    intro b hu
    rcases found with found | ⟨_, free⟩
    · exact undisturbed.intact c b live (by simp [writesBack, found, hu])
    · rw [underRip_free free] at hu
      cases hu
  | started loaded started =>
    exact started.armed (inv.tracked.gone_of (by simp [loaded])) inv.distinct live'
  | ran loaded w₁ c started live running free conted =>
    have harm := started.armed (inv.tracked.gone_of (by simp [loaded])) inv.distinct live
    refine conted.armed live harm ?_ live' spared
    intro b hu
    rw [underRip_free free] at hu
    cases hu
  | placed target code accepted dbg os saved calls =>
    obtain ⟨c, live, hc'⟩ := poked_child os live'
    subst hc'
    rw [dbg, saved c live]
    exact (inv.armed c live).placed _ (accepted_fresh accepted)
  | removed b bp found removed dbg os calls =>
    obtain ⟨c, live, hc'⟩ := poked_child os live'
    subst hc'
    obtain ⟨pre, post, hsplit, hrest⟩ := removed_split removed
    have armed := inv.armed c live
    have distinct := inv.distinct
    rw [hsplit] at armed distinct
    rw [dbg]
    dsimp only
    rw [hrest]
    exact armed.removed distinct
      (undisturbed.intact c b live (by simp [writesBack, found, removed]))
  | loaded idle bp os calls => exact absurd (by rw [os]) live'.not_gone

theorem reached_overlay {m : Machine η} (none : m.proc = none)
    (h : Reached (handle (machineHost T fuel B)) (Undisturbed (machineHost T fuel B))
      (World.init m) w) : OverlayInv w := by
  refine h.invariant (I := OverlayInv) ?_ ?_
  · refine ⟨.inl none, List.nodup_nil, ?_⟩
    exact fun c live => absurd none live.not_gone
  · intro w i w' _ inv undisturbed ran
    have turn := handle_turn inv.tracked ran
    exact ⟨turn_tracked turn inv.tracked undisturbed.outside, turn_distinct turn inv.distinct,
      fun _ live => turn_armed turn inv undisturbed live⟩

end Runs

/-- In every run in which each saved word that is written back is intact, memory is the
image with `0xcc` over the breakpoints, and the saved words have the image's bytes there. -/
theorem memory_is_overlay {η : Type} (T : Isa η) (fuel : Nat) (B : Host (Machine η))
    (m : Machine η) (childless : m.proc = none) (w : World (Machine η))
    (reached : Reached (handle (machineHost T fuel B)) (Undisturbed (machineHost T fuel B))
      (World.init m) w) (c : Child η) (live : Live w c) :
    c.mem = overlay c.image (w.dbg.bp.map (·.addr)) 0xcc ∧
      ∀ b ∈ w.dbg.bp, byteOf b.code 0 = c.image b.addr := by
  obtain ⟨mem, code⟩ := (reached_overlay childless reached).armed c live
  exact ⟨mem, code⟩

/-- Whether a line read by the debugger leads to an undisturbed transition. -/
def checkUndisturbed {η : Type} (H : Host (Machine η)) (w : World (Machine η))
    (i : Input (Machine η)) (w' : World (Machine η)) : Bool :=
  typed i &&
    (match w'.os.proc with
      | some (.stopped c) => w'.dbg.bp.all fun b => !c.written b.addr
      | _ => true) &&
    match w.os.proc with
    | some (.stopped c) =>
      match writesBack H w.dbg i c with
      | none => true
      | some b => (List.range 8).all fun i =>
          i = 0 || byteOf b.code i = c.mem (b.addr + BitVec.ofNat 64 i)
    | _ => true

theorem undisturbed_of_check {η : Type} {H : Host (Machine η)} {w w' : World (Machine η)}
    {i : Input (Machine η)} (h : checkUndisturbed H w i w' = true) : Undisturbed H w i w' := by
  obtain ⟨hio, hback⟩ := Bool.and_eq_true_iff.mp h
  obtain ⟨htyped, hspares⟩ := Bool.and_eq_true_iff.mp hio
  constructor
  · intro move hi
    subst hi
    cases htyped
  · intro c live b hb
    rw [live.proc] at hspares
    simpa using List.all_eq_true.mp hspares b hb
  · intro c b live hw j hpos hlt
    rw [live.proc] at hback
    dsimp only at hback
    rw [hw] at hback
    have hj := List.all_eq_true.mp hback j (List.mem_range.mpr hlt)
    have hne : j ≠ 0 := by omega
    simpa [hne] using hj

/-- Two breakpoints eight bytes apart, a step to the first, a step over it, and the other
one deleted. -/
theorem memory_is_overlay_demo : ∃ (w : World (Machine Demo.Hidden)) (c : Child Demo.Hidden),
    w.dbg.bp.length = 1 ∧ c.mem = overlay c.image (w.dbg.bp.map (·.addr)) 0xcc := by
  obtain ⟨w, hw, hs⟩ := exists_reached (handle (Demo.host Demo.static))
    (fun w i w' => checkUndisturbed (Demo.host Demo.static) w i w')
    (World.init (Demo.machine (Demo.program Demo.nops)))
    [.line ["load", "demo"], .line ["b", "0x401001"], .line ["b", "0x401009"], .line ["start"],
      .line ["si"], .line ["si"], .line ["delete", "1"]]
    (fun w => decide (w.dbg.bp.length = 1) && (w.os.child w.dbg.pid).isSome) (by decide +kernel)
  obtain ⟨hone, hlive⟩ := Bool.and_eq_true_iff.mp hs
  obtain ⟨c, hc⟩ := Option.isSome_iff_exists.mp hlive
  have undisturbed : Reached _ (Undisturbed _) _ w := hw.mono fun _ _ _ => undisturbed_of_check
  refine ⟨w, c, of_decide_eq_true hone, ?_⟩
  exact (memory_is_overlay _ _ _ _ rfl w undisturbed c (live_of_child hc)).1

/-- No instruction writes memory. -/
def Writeless {η : Type} (T : Isa η) : Prop := ∀ regs hidden m,
  match T.exec regs hidden m with
  | .next _ _ wrote | .signal _ _ _ wrote => ∀ x, wrote x = none
  | .exit _ | .killed _ _ => True

theorem demo_writeless : Writeless Demo.isa := by
  intro regs hidden m
  simp only [Demo.isa, Demo.exec]
  split
  · rename_i h
    repeat' split at h
    all_goals cases h
    all_goals exact fun _ => rfl
  · rename_i h
    repeat' split at h
    all_goals cases h
    all_goals exact fun _ => rfl
  · trivial
  · trivial

/-- With breakpoints on two neighbouring bytes, a step over the first writes back a word
that covers the second one, which is left without its `0xcc`. -/
theorem neighbour_disarmed : Writeless Demo.isa ∧
    ∃ (w : World (Machine Demo.Hidden)) (c : Child Demo.Hidden),
      Reached (handle (Demo.host Demo.static)) (fun _ i _ => typed i = true)
        (World.init (Demo.machine (Demo.program Demo.nops))) w ∧
      w.dbg.stat = .running ∧ Live w c ∧
      c.mem ≠ overlay c.image (w.dbg.bp.map (·.addr)) 0xcc := by
  obtain ⟨w, hw, hs⟩ := exists_reached (handle (Demo.host Demo.static)) (fun _ i _ => typed i)
    (World.init (Demo.machine (Demo.program Demo.nops)))
    [.line ["load", "demo"], .line ["b", "0x401000"], .line ["b", "0x401001"], .line ["start"],
      .line ["si"]]
    (fun w => checkStopped w fun c =>
      decide (0x401001 ∈ w.dbg.bp.map BreakPt.addr) && c.mem 0x401001 = 0x90) (by decide +kernel)
  obtain ⟨running, c, live, hbyte⟩ := checked_stopped hs
  obtain ⟨hset, hnop⟩ := Bool.and_eq_true_iff.mp hbyte
  refine ⟨demo_writeless, w, c, hw, running, live, ?_⟩
  intro hm
  have hcc := congrFun hm 0x401001
  rw [overlay_mem (of_decide_eq_true hset), of_decide_eq_true hnop] at hcc
  revert hcc
  decide

end UnixProgramming.Sdb.Proofs
