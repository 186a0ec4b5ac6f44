import UnixProgramming.Lib.Roster
import UnixProgramming.Sdb.Proofs.Session

namespace UnixProgramming.Sdb.Proofs
open Lib

/-- The list of breakpoints is the roster, with every place moved by `base`. -/
structure Represents (d : Debugger) (r : Roster Word) : Prop where
  entries : d.bp.map (fun b => (b.id, b.addr - d.base)) =
    r.entries.map (fun e => (BitVec.ofNat 32 e.1, e.2))
  next : d.bpi = BitVec.ofNat 32 r.next

/-- What a command asks of the roster, told from the state it starts in. -/
def entryOf (H : Host σ) (w : World σ) : Input σ → Entry Word
  | .line (word :: argv) =>
    match lookup H.list word with
    | some .load => if argv.isEmpty then .keep else .clear
    | some .break =>
      match accepted w.dbg (word :: argv) with
      | some target => .add (target - w.dbg.base)
      | none => .keep
    | some .delete =>
      match argv[0]? with
      | some text => .remove (atoi text).toNat
      | none => .keep
    | _ => .keep
  | _ => .keep

theorem unlinkAfter_eq (n : BitVec 32) (ptr : BreakPt) (l : List BreakPt) :
    unlinkAfter n ptr l =
      (l.find? (·.id = n)).map fun b => (b, ptr :: l.eraseP (·.id = n)) := by
  induction l generalizing ptr with
  | nil => rfl
  | cons b rest ih =>
    by_cases h : b.id = n
    · simp [unlinkAfter, h]
    · simp [unlinkAfter, h, ih, Function.comp_def]

/-- The walk with two pointers unlinks the first node with the id. -/
theorem unlink_eq (n : BitVec 32) (l : List BreakPt) :
    unlink n l = (l.find? (·.id = n)).map fun b => (b, l.eraseP (·.id = n)) := by
  cases l with
  | nil => rfl
  | cons b rest =>
    by_cases h : b.id = n
    · simp [unlink, h]
    · simp [unlink, h, unlinkAfter_eq]

theorem unlink_split {n : BitVec 32} {l l' : List BreakPt} {b : BreakPt}
    (h : unlink n l = some (b, l')) :
    b.id = n ∧ ∃ pre post, l = pre ++ b :: post ∧ l' = pre ++ post := by
  rw [unlink_eq] at h
  obtain ⟨b', hf, he⟩ := Option.map_eq_some_iff.mp h
  cases he
  obtain ⟨hp, pre, post, hl, hpre⟩ := List.find?_eq_some_iff_append.mp hf
  refine ⟨of_decide_eq_true hp, pre, post, hl, ?_⟩
  have hnot : ∀ a ∈ pre, ¬decide (a.id = n) = true := fun a ha => by simpa using hpre a ha
  rw [hl, List.eraseP_append_right (b :: post) hnot, List.eraseP_cons_of_pos (l := post) hp]

/-- `delete` erases the first breakpoint with the number, if there is one. -/
theorem deleted_erases {d d' : Debugger} {word text : String} {argv : List String}
    (h : Deleted d (word :: text :: argv) d') :
    d' = { d with bp := d.bp.eraseP (·.id = atoi text) } := by
  simp only [Deleted, removed, List.getElem?_cons_succ, List.getElem?_cons_zero,
    Option.bind_some, unlink_eq] at h
  cases hf : d.bp.find? (·.id = atoi text) with
  | none =>
    rw [hf] at h
    rw [List.eraseP_of_forall_not (List.find?_eq_none.mp hf)]
    exact h
  | some b =>
    rw [hf] at h
    exact h

theorem removed_split {d : Debugger} {argv : List String} {b : BreakPt} {bp : List BreakPt}
    (h : removed d argv = some (b, bp)) : ∃ pre post, d.bp = pre ++ b :: post ∧ bp = pre ++ post := by
  obtain ⟨_, _, hu⟩ := Option.bind_eq_some_iff.mp h
  exact (unlink_split hu).2

theorem eraseP_eq_filter {l : List BreakPt} (hl : (l.map (·.id)).Nodup) (n : BitVec 32) :
    l.eraseP (·.id = n) = l.filter (·.id ≠ n) := by
  induction l with
  | nil => rfl
  | cons b rest ih =>
    obtain ⟨hb, hrest⟩ := List.nodup_cons.mp hl
    by_cases h : b.id = n
    · have hne : ∀ b' ∈ rest, decide (b'.id ≠ n) = true := by
        intro b' hb'
        apply decide_eq_true
        intro he
        exact hb (List.mem_map.mpr ⟨b', hb', he.trans h.symm⟩)
      rw [List.eraseP_cons_of_pos (by simpa using h), List.filter_cons_of_neg (by simpa using h),
        List.filter_eq_self.mpr hne]
    · rw [List.eraseP_cons_of_neg (by simpa using h), List.filter_cons_of_pos (by simpa using h),
        ih hrest]

section Ids
variable {d : Debugger} {r : Roster Word}

theorem Represents.ids (h : Represents d r) :
    d.bp.map (·.id) = r.entries.map (fun e => BitVec.ofNat 32 e.1) := by
  have hm := congrArg (List.map Prod.fst) h.entries
  simpa [List.map_map, Function.comp_def] using hm

theorem Represents.places (h : Represents d r) :
    d.bp.map (fun b => b.addr - d.base) = r.values := by
  have hm := congrArg (List.map Prod.snd) h.entries
  simpa [List.map_map, Function.comp_def, Roster.values] using hm

/-- As long as they stay below `2 ^ 31`, ids count up as the `int` they are. -/
theorem id_toInt {n : Nat} (h : n < 2 ^ 31) : (BitVec.ofNat 32 n).toInt = n := by
  rw [BitVec.toInt_eq_toNat_of_lt]
  · rw [BitVec.toNat_ofNat, Nat.mod_eq_of_lt (by omega)]
  · rw [BitVec.toNat_ofNat, Nat.mod_eq_of_lt (by omega)]
    omega

theorem Represents.increasing (h : Represents d r) (few : r.next < 2 ^ 31) :
    (d.bp.map (·.id.toInt)).Pairwise (· < ·) ∧ ∀ b ∈ d.bp, b.id.toInt < d.bpi.toInt := by
  have hm : d.bp.map (·.id.toInt) = r.entries.map (fun e => (e.1 : Int)) := by
    have hi := congrArg (List.map BitVec.toInt) h.ids
    rw [List.map_map, List.map_map] at hi
    rw [show d.bp.map (·.id.toInt) = d.bp.map (BitVec.toInt ∘ (·.id)) from rfl, hi]
    apply List.map_congr_left
    intro e he
    exact id_toInt (Nat.lt_trans (r.below e he) few)
  constructor
  · rw [hm]
    apply List.pairwise_map.mpr
    exact r.ordered.imp (fun hlt => Int.ofNat_lt.mpr hlt)
  · intro b hb
    have hmem : b.id.toInt ∈ r.entries.map (fun e => (e.1 : Int)) :=
      hm ▸ List.mem_map.mpr ⟨b, hb, rfl⟩
    obtain ⟨e, he, hid⟩ := List.mem_map.mp hmem
    rw [← hid, h.next, id_toInt few]
    exact Int.ofNat_lt.mpr (r.below e he)

theorem Represents.ids_nodup (h : Represents d r) (few : r.next < 2 ^ 31) :
    (d.bp.map (·.id)).Nodup := by
  have hinc := (h.increasing few).1
  rw [show d.bp.map (·.id.toInt) = (d.bp.map (·.id)).map BitVec.toInt by
    rw [List.map_map]; rfl] at hinc
  apply List.Nodup.of_map BitVec.toInt
  exact hinc.imp (fun hlt => Int.ne_of_lt hlt)

theorem Represents.addrs_nodup (h : Represents d r) : (d.bp.map (·.addr)).Nodup := by
  have hp : (d.bp.map (fun b => b.addr - d.base)).Nodup := h.places ▸ r.distinct
  apply List.Nodup.of_map (· - d.base)
  rw [List.map_map]
  exact hp

end Ids

section Steps
variable {d d' : Debugger} {r : Roster Word}

/-- The addresses move with `base` and nothing else changes. -/
theorem Represents.rebased (h : Represents d r) (hb : d'.bpi = d.bpi)
    (hm : d'.bp.map (fun b => (b.id, b.addr - d'.base)) = d.bp.map (fun b => (b.id, b.addr - d.base))) :
    Represents d' r :=
  ⟨hm.trans h.entries, hb.trans h.next⟩

/-- `stop_debugger` keeps the breakpoints at their places. -/
theorem stopRecord_places (inv : Ready d) (clean : Clean d) (hr : stopRecord d = some d') :
    d'.bpi = d.bpi ∧
      d'.bp.map (fun b => (b.id, b.addr - d'.base)) = d.bp.map (fun b => (b.id, b.addr - d.base)) := by
  unfold stopRecord at hr
  cases hs : d.stat with
  | init => rw [hs] at hr; cases hr; exact ⟨rfl, rfl⟩
  | loaded =>
    rw [hs] at hr
    cases hr
    exact ⟨rfl, by rw [(clean hs).1]; rfl⟩
  | running =>
    rw [hs] at hr
    obtain ⟨ptext, ht, he⟩ := Option.map_eq_some_iff.mp hr
    subst he
    by_cases hv : ptext.vaddr = 0
    · rw [if_pos hv]
      refine ⟨rfl, ?_⟩
      simp [Debugger.stopped, Debugger.unbase]
    · -- A segment that is not linked at zero has left the base at zero.
      have hb : d.base = 0 := by
        rcases inv.biased hs with hb | ⟨ptext', ht', hv'⟩
        · exact hb
        · rw [ht] at ht'
          cases ht'
          exact absurd hv' hv
      rw [if_neg hv]
      refine ⟨rfl, ?_⟩
      rw [hb]
      rfl

/-- A started program has its breakpoints where they were, from its base on. -/
theorem started_places {bp bp' : List BreakPt} {base : Word}
    (moved : bp'.map (fun b => (b.id, b.addr)) = bp.map (fun b => (b.id, b.addr + base))) :
    bp'.map (fun b => (b.id, b.addr - base)) = bp.map (fun b => (b.id, b.addr - 0)) := by
  have hm := congrArg (List.map (fun p : BitVec 32 × Word => (p.1, p.2 - base))) moved
  simpa [List.map_map, Function.comp_def] using hm

/-- No move changes a breakpoint's place. -/
theorem move_places {s s' : Snap} (hm : Move s s') (inv : Ready s.1) (clean : Clean s.1) :
    s'.1.bpi = s.1.bpi ∧ s'.1.bp.map (fun b => (b.id, b.addr - s'.1.base)) =
      s.1.bp.map (fun b => (b.id, b.addr - s.1.base)) := by
  cases hm with
  | waited d c res => exact ⟨rfl, rfl⟩
  | killed => exact ⟨rfl, rfl⟩
  | reaped => exact ⟨rfl, rfl⟩
  | ended d d' c stop => exact stopRecord_places inv clean stop
  | failed d c loaded => exact ⟨rfl, rfl⟩
  | forked d c pid loaded => exact ⟨rfl, rfl⟩
  | awaited d c pid res loaded child => exact ⟨rfl, rfl⟩
  | started d c pid st ptext base bp loaded child stopped text bias moved =>
    refine ⟨rfl, ?_⟩
    rw [(clean loaded).1]
    exact started_places moved
  | dumped d c next running => exact ⟨rfl, rfl⟩
  | swept d c next loaded => exact ⟨rfl, rfl⟩

theorem move_represents {s s' : Snap} (hm : Move s s') (inv : Ready s.1) (clean : Clean s.1)
    (h : Represents s.1 r) : Represents s'.1 r :=
  h.rebased (move_places hm inv clean).1 (move_places hm inv clean).2

theorem moves_represents {s s' : Snap} (hm : Moves s s') (inv : Ready s.1) (clean : Clean s.1)
    (h : Represents s.1 r) : Represents s'.1 r := by
  induction hm with
  | refl => exact h
  | tail before step ih =>
    exact move_represents step (moves_ready before inv) (moves_clean before clean) ih

theorem Represents.cleared (hb : d.bp = []) (hi : d.bpi = 0) : Represents d .empty :=
  ⟨by rw [hb]; rfl, hi⟩

theorem load_represents {name : String} (hb : Blank d)
    (short : name.utf8ByteSize < MAX_PROG_NAME_LEN) (hl : LoadResult d name d') :
    Represents d' .empty := by
  cases hl with
  | absent => exact .cleared hb.bp hb.bpi
  | rejected => exact .cleared rfl rfl
  | loaded eh stext found fits =>
    rw [copyName_short short]
    exact .cleared hb.bp hb.bpi

theorem accepted_fresh {argv : List String} {target : Word} (h : accepted d argv = some target) :
    target ∉ d.bp.map (·.addr) := by
  unfold accepted at h
  split at h
  · split at h
    · cases h
    · split at h
      · cases h
      · split at h
        · cases h
        · rename_i hf
          cases h
          intro hm
          obtain ⟨b, hb, ha⟩ := List.mem_map.mp hm
          apply hf
          rw [Debugger.bpFindByAddr, List.findIdx?_isSome, List.any_eq_true]
          exact ⟨b, hb, by simpa using ha⟩
  · cases h

theorem Represents.break (h : Represents d r) {argv : List String} {target : Word}
    (ha : accepted d argv = some target) (code : Word) :
    Represents { d with bpi := d.bpi + 1, bp := d.bp ++ [⟨d.bpi, target, code⟩] }
      (r.add (target - d.base)) := by
  have hf : target - d.base ∉ r.values := by
    rw [← h.places]
    intro hm
    obtain ⟨b, hb, he⟩ := List.mem_map.mp hm
    have heq : b.addr = target := by
      have := congrArg (· + d.base) he
      simpa using this
    exact accepted_fresh ha (List.mem_map.mpr ⟨b, hb, heq⟩)
  obtain ⟨hn, he⟩ := Roster.add_fresh hf
  constructor
  · rw [he, List.map_append, List.map_append]
    simp only [List.map_cons, List.map_nil]
    rw [h.entries, h.next]
  · rw [hn, BitVec.ofNat_add, ← h.next]
    rfl

theorem Represents.delete (h : Represents d r) (few : r.next < 2 ^ 31) (n : BitVec 32) :
    Represents { d with bp := d.bp.eraseP (·.id = n) } (r.remove n.toNat) := by
  refine ⟨?_, h.next⟩
  rw [eraseP_eq_filter (h.ids_nodup few)]
  have hf := congrArg (List.filter (fun p : BitVec 32 × Word => p.1 ≠ n)) h.entries
  rw [List.filter_map, List.filter_map] at hf
  refine Eq.trans hf ?_
  congr 1
  apply List.filter_congr
  intro e he
  have hlt := r.below e he
  have hiff : BitVec.ofNat 32 e.1 = n ↔ e.1 = n.toNat := by
    rw [← BitVec.toNat_inj, BitVec.toNat_ofNat, Nat.mod_eq_of_lt (by omega)]
  simp [hiff]

end Steps

section Rounds
variable {σ : Type} {H : Host σ}

theorem round_represents {i : Input σ} {w w' : World σ} {r : Roster Word} (hr : Round H w i w')
    (fits : NameFits H i) (inv : Ready w.dbg) (clean : Clean w.dbg) (h : Represents w.dbg r)
    (few : r.next < 2 ^ 31) : Represents w'.dbg (r.apply (entryOf H w i)) := by
  cases hr with
  | outside move w' same => exact dbg_eq same ▸ h
  | unknown word argv w' found same =>
    simp only [entryOf, found]
    exact dbg_eq same ▸ h
  | quiet word argv w' b found still moves =>
    have he : entryOf H w (.line (word :: argv)) = .keep := by
      simp only [entryOf, found]
      cases b <;> first | rfl | cases still
    rw [he]
    exact moves_represents moves inv clean h
  | bare word w' found same =>
    simp only [entryOf, found]
    exact dbg_eq same ▸ h
  | load word name argv w' found calls result =>
    simp only [entryOf, found]
    exact load_represents (cleared_blank inv).2 (fits found) result
  | «break» word argv w' found calls broke =>
    simp only [entryOf, found]
    obtain ⟨ha, he⟩ | ⟨target, code, ha, he⟩ := broke.cases
    · rw [ha, he]
      exact h
    · rw [ha, he]
      exact h.break ha code
  | delete word argv w' found calls deleted =>
    simp only [entryOf, found]
    cases argv with
    | nil =>
      have he : w'.dbg = w.dbg := deleted
      exact he ▸ h
    | cons text argv =>
      rw [deleted_erases deleted]
      exact h.delete few (atoi text)

/-- The list represents the roster of the whole session. -/
theorem recorded_represents {os : σ} {es : List (Entry Word)} {w : World σ}
    (h : Recorded (handle H) (fun _ i _ => NameFits H i) (entryOf H) (World.init os) es w)
    (few : es.countP Roster.isAdd < 2 ^ 31) : Represents w.dbg (Roster.replay es) := by
  induction h with
  | init => exact .cleared rfl rfl
  | @next es w i w' before ran fits ih =>
    rw [List.countP_append] at few
    have hr := ih (by omega)
    have hn := Roster.replay_next es
    have clean := reached_clean (fun _ _ _ fits => fits) before.reached
    rw [Roster.replay_append]
    exact round_represents (handle_round H ran) fits (reached_ready before.reached) clean hr
      (by omega)

theorem delete_one {w w' : World σ} {word text : String} {argv : List String}
    (found : lookup H.list word = some .delete)
    (ran : handle H (.line (word :: text :: argv)) w = .ok () w') :
    ((∀ b ∈ w.dbg.bp, b.id ≠ atoi text) ∧ w'.dbg = w.dbg) ∨
      ∃ pre b post, w.dbg.bp = pre ++ b :: post ∧ b.id = atoi text ∧
        w'.dbg = { w.dbg with bp := pre ++ post } := by
  rw [handle, exec_found H 2 found] at ran
  obtain ⟨_, hd⟩ := (delete_spec H (word :: text :: argv) w).ok ran
  simp only [Deleted, removed, List.getElem?_cons_succ, List.getElem?_cons_zero,
    Option.bind_some] at hd
  cases hf : unlink (atoi text) w.dbg.bp with
  | none =>
    rw [hf] at hd
    left
    refine ⟨?_, hd⟩
    intro b hb
    rw [unlink_eq, Option.map_eq_none_iff] at hf
    simpa using List.find?_eq_none.mp hf b hb
  | some r =>
    obtain ⟨b, bp⟩ := r
    rw [hf] at hd
    right
    obtain ⟨hid, pre, post, hs, he⟩ := unlink_split hf
    have hw : w'.dbg = { w.dbg with bp := bp } := hd
    rw [he] at hw
    exact ⟨pre, b, post, hs, hid, hw⟩

/-- A breakpoint that stays keeps its place relative to `base`. -/
theorem place_stable {d d' : Debugger} {r : Roster Word} {e : Entry Word} (h : Represents d r)
    (h' : Represents d' (r.apply e)) (few : r.next < 2 ^ 31) (few' : (r.apply e).next < 2 ^ 31)
    (kept : e ≠ .clear) {b b' : BreakPt} (hb : b ∈ d.bp) (hb' : b' ∈ d'.bp) (hid : b'.id = b.id) :
    b'.addr - d'.base = b.addr - d.base := by
  have entry_of : ∀ {d : Debugger} {r : Roster Word} {b : BreakPt}, Represents d r →
      r.next < 2 ^ 31 → b ∈ d.bp → (b.id.toNat, b.addr - d.base) ∈ r.entries := by
    intro d r b h few hb
    have hm : (b.id, b.addr - d.base) ∈ r.entries.map (fun e => (BitVec.ofNat 32 e.1, e.2)) :=
      h.entries ▸ List.mem_map.mpr ⟨b, hb, rfl⟩
    obtain ⟨⟨n, a⟩, he, heq⟩ := List.mem_map.mp hm
    have hlt := r.below _ he
    cases Prod.mk.inj heq with
    | intro hn ha =>
      dsimp only at hn ha hlt
      rw [← hn, ← ha, BitVec.toNat_ofNat, Nat.mod_eq_of_lt (by omega)]
      exact he
  have he := entry_of h few hb
  have he' := entry_of h' few' hb'
  rw [hid] at he'
  have hold := Roster.apply_stable kept he he'
  have heq := r.entry_unique hold he rfl
  exact congrArg Prod.snd heq

end Rounds

/-- Over whole sessions in which every name fits in `program`, the list of breakpoints is the
roster of what `break` accepted and `delete` has not removed since the last `load` with a file. -/
theorem breakpoints_refine_roster {σ : Type} (H : Host σ) (os : σ) (es : List (Entry Word))
    (w : World σ)
    (recorded : Recorded (handle H) (fun _ i _ => NameFits H i) (entryOf H) (World.init os) es w)
    (few : es.countP Roster.isAdd < 2 ^ 31) :
    w.dbg.bp.map (fun b => (b.id, b.addr - w.dbg.base)) =
        (Roster.replay es).entries.map (fun e => (BitVec.ofNat 32 e.1, e.2)) ∧
      (w.dbg.bp.map (·.id.toInt)).Pairwise (· < ·) ∧
      (∀ b ∈ w.dbg.bp, b.id.toInt < w.dbg.bpi.toInt) ∧
      (w.dbg.bp.map (·.addr)).Nodup ∧
      (∀ i w', handle H i w = .ok () w' → NameFits H i → entryOf H w i ≠ .clear →
        (es ++ [entryOf H w i]).countP Roster.isAdd < 2 ^ 31 →
        ∀ b ∈ w.dbg.bp, ∀ b' ∈ w'.dbg.bp, b'.id = b.id →
          b'.addr - w'.dbg.base = b.addr - w.dbg.base) ∧
      ∀ word text argv w', lookup H.list word = some .delete →
        handle H (.line (word :: text :: argv)) w = .ok () w' →
        ((∀ b ∈ w.dbg.bp, b.id ≠ atoi text) ∧ w'.dbg = w.dbg) ∨
          ∃ pre b post, w.dbg.bp = pre ++ b :: post ∧ b.id = atoi text ∧
            w'.dbg = { w.dbg with bp := pre ++ post } := by
  have hr := recorded_represents recorded few
  have hn := Roster.replay_next es
  have hlt : (Roster.replay es).next < 2 ^ 31 := by omega
  obtain ⟨hinc, hbelow⟩ := hr.increasing hlt
  refine ⟨hr.entries, hinc, hbelow, hr.addrs_nodup, ?_, fun _ _ _ _ => delete_one⟩
  intro i w' ran fits kept few' b hb b' hb' hid
  have hr' := recorded_represents (recorded.next ran fits) few'
  have hn' := Roster.replay_next (es ++ [entryOf H w i])
  rw [Roster.replay_append] at hr' hn'
  exact place_stable hr hr' hlt (by omega) kept hb hb' hid

/-- Two breakpoints set, the program started, one of them deleted. -/
theorem breakpoints_refine_roster_demo :
    ∃ w : World (Machine Demo.Hidden), w.dbg.bp.length = 1 ∧ (w.dbg.bp.map (·.addr)).Nodup := by
  obtain ⟨es, w, hw, hl, hs⟩ := exists_recorded (handle (Demo.host Demo.static))
    (fun _ i _ => decide (NameFits (Demo.host Demo.static) i)) (entryOf (Demo.host Demo.static))
    (World.init (Demo.machine (Demo.program Demo.nops)))
    [.line ["load", "demo"], .line ["b", "0x401001"], .line ["b", "0x401002"], .line ["start"],
      .line ["delete", "0"]]
    (fun w => w.dbg.bp.length = 1) (by decide +kernel)
  have few : es.countP Roster.isAdd < 2 ^ 31 := by
    have hle : es.countP Roster.isAdd ≤ es.length := List.countP_le_length
    simp only [List.length_cons, List.length_nil] at hl
    omega
  have fits := hw.mono fun _ _ _ h => of_decide_eq_true h
  obtain ⟨_, _, _, hn, _⟩ := breakpoints_refine_roster _ _ es w fits few
  exact ⟨w, of_decide_eq_true hs, hn⟩

/-- A breakpoint accepted relative to the base that a long name leaves is at another place once
`start` has set the base. -/
theorem overrun_moves_break : ∃ (w w' : World (Machine Demo.Hidden)) (b b' : BreakPt),
    Reached (handle (Demo.host Demo.static)) (fun _ _ _ => True)
      (World.init (Demo.machine (Demo.program Demo.nops))) w ∧
    handle (Demo.host Demo.static) (.line ["start"]) w = .ok () w' ∧
    w.dbg.bp = [b] ∧ w'.dbg.bp = [b'] ∧ b'.id = b.id ∧
    b.addr - w.dbg.base = 0x401001 ∧ b'.addr - w'.dbg.base = 0x401062 := by
  obtain ⟨w, hw, hs⟩ := exists_run (handle (Demo.host Demo.static))
    (World.init (Demo.machine (Demo.program Demo.nops)))
    [.line ["load", overrunName], .line ["b", "0x401062"]]
    (fun w => w.dbg.bp = [⟨0x61616161, 0x401062, 0⟩] && (w.dbg.base = 0x61 &&
      match returned (handle (Demo.host Demo.static) (.line ["start"]) w) with
      | some w' => w'.dbg.base = 0 &&
          w'.dbg.bp = [⟨0x61616161, 0x401062, 0⟩]
      | none => false))
    (by decide +kernel)
  obtain ⟨set, hs⟩ := Bool.and_eq_true_iff.mp hs
  obtain ⟨based, hs⟩ := Bool.and_eq_true_iff.mp hs
  have set := of_decide_eq_true set
  have based := of_decide_eq_true based
  split at hs
  · rename_i w' started
    obtain ⟨_, started⟩ := returned_eq_some.mp started
    obtain ⟨moved, patched⟩ := Bool.and_eq_true_iff.mp hs
    have moved := of_decide_eq_true moved
    exact ⟨w, w', _, _, hw, started, set, of_decide_eq_true patched, rfl, by rw [based]; rfl,
      by rw [moved]; rfl⟩
  · cases hs

end UnixProgramming.Sdb.Proofs
