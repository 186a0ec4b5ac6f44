import Mathlib.Order.Bounds.Basic
import UnixProgramming.Sdb.Elf

namespace UnixProgramming.Sdb.Proofs
open Lib

/-- The header tables of a file, as functions of the number of the entry. -/
structure Layout where
  ehdr : Ehdr
  phdr : Nat → Phdr
  shdr : Nat → Shdr

/-- libelf can read all headers of `f`, and yields sections `1` to `shnum - 1` once each. -/
structure Readable (f : ElfFile) (L : Layout) : Prop where
  ehdr : f.ehdr = some L.ehdr
  phdr : 0 < L.ehdr.phnum → f.phdrs = some L.phdr
  scns : (f.scns.map Scn.ndx).Perm (List.range' 1 (L.ehdr.shnum - 1))
  shdr : ∀ s ∈ f.scns, s.shdr = some (L.shdr s.ndx)

/-- Section `i` in memory: slot 0 is never written. -/
def Layout.slot (L : Layout) (A : Alloc) (i : Nat) : Shdr := if i = 0 then A.shdr 0 else L.shdr i

def Layout.table (L : Layout) (A : Alloc) : List Shdr := (List.range L.ehdr.shnum).map (L.slot A)

/-- What `elf_open` makes of a file of class `clazz`. -/
def Layout.handle (L : Layout) (f : ElfFile) (clazz : Nat) : ElfHandle where
  elf := f
  clazz := clazz
  phnum := L.ehdr.phnum
  shnum := L.ehdr.shnum
  shstrndx := L.ehdr.shstrndx
  entrypoint := L.ehdr.entry

section Tables
variable {α : Type} {g : Nat → α} {p : α → Bool} {n i : Nat}

/-- The search loops find the lowest entry that passes. -/
theorem find_range :
    ((List.range n).map g).findIdx? p = some i ↔ IsLeast {j | j < n ∧ p (g j) = true} i := by
  rw [List.findIdx?_eq_some_iff_getElem]
  simp only [List.length_map, List.length_range, List.getElem_map, List.getElem_range]
  constructor
  · intro h
    obtain ⟨hlt, hp, hmin⟩ := h
    refine ⟨⟨hlt, hp⟩, ?_⟩
    intro j hj
    by_contra hji
    exact hmin j (by omega) hj.2
  · intro h
    obtain ⟨⟨hlt, hp⟩, hmin⟩ := h
    refine ⟨hlt, hp, ?_⟩
    intro j hji hpj
    have hle := hmin ⟨by omega, hpj⟩
    omega

theorem find_range_none :
    ((List.range n).map g).findIdx? p = none ↔ ∀ j < n, p (g j) = false := by
  simp [List.findIdx?_eq_none_iff]

theorem mem_zipIdx_range {x : α × Nat} :
    x ∈ ((List.range n).map g).zipIdx ↔ x.2 < n ∧ x.1 = g x.2 := by
  rw [List.mem_zipIdx_iff_getElem?, List.getElem?_map]
  by_cases hx : x.2 < n
  · simp [hx, eq_comm]
  · simp [hx]

end Tables

section Elftool
variable {A : Alloc} {f : ElfFile} {L : Layout} {clazz n : Nat} {shdr : Nat → Shdr}
  {pread : Word → Word → Option (List Byte)}

theorem elfOpen_reads (readable : Readable f L) (ident : f.ident = some 1 ∨ f.ident = some 2)
    (malloc : A.malloc .handle = true) :
    ∃ clazz, (clazz = ELFCLASS32 ∨ clazz = ELFCLASS64) ∧
      elfOpen A (some f) = .ok (some (L.handle f clazz)) := by
  unfold elfOpen
  rcases ident with h | h
  · refine ⟨ELFCLASS32, .inl rfl, ?_⟩
    simp [h, malloc, readable.ehdr, Layout.handle]
  · refine ⟨ELFCLASS64, .inr rfl, ?_⟩
    simp [h, malloc, readable.ehdr, Layout.handle]

/-- The loop of `elf_load_shdr` writes the slots of the sections it meets and no others. -/
theorem assignShdr_get {scns : List Scn} {t : List Shdr}
    (headers : ∀ s ∈ scns, s.ndx < n ∧ s.shdr = some (shdr s.ndx)) (len : t.length = n) :
    ∃ t', assignShdr n scns t = .ok t' ∧ t'.length = n ∧
      (∀ i ∈ scns.map Scn.ndx, t'[i]? = some (shdr i)) ∧
      ∀ i ∉ scns.map Scn.ndx, t'[i]? = t[i]? := by
  induction scns generalizing t with
  | nil => exact ⟨t, rfl, len, by simp, fun _ _ => rfl⟩
  | cons s scns ih =>
    obtain ⟨hlt, hs⟩ := headers s List.mem_cons_self
    have hlen : (t.set s.ndx (shdr s.ndx)).length = n := by rw [List.length_set, len]
    obtain ⟨t', hran, hlen', hin, hout⟩ :=
      ih (fun s' hs' => headers s' (List.mem_cons_of_mem s hs')) hlen
    refine ⟨t', ?_, hlen', ?_, ?_⟩
    · rw [assignShdr, hs, Nat.mod_eq_of_lt hlt]
      exact hran
    · intro i hi
      by_cases hm : i ∈ scns.map Scn.ndx
      · exact hin i hm
      · have he : i = s.ndx := by simpa [hm] using hi
        rw [hout i hm, he, List.getElem?_set_self (by omega)]
    · intro i hi
      rw [List.map_cons, List.mem_cons, not_or] at hi
      rw [hout i hi.2, List.getElem?_set_ne (fun he => hi.1 he.symm)]

/-- The section table holds the headers of the file, except in slot 0. -/
theorem assignShdr_table (readable : Readable f L) :
    assignShdr L.ehdr.shnum f.scns ((List.range L.ehdr.shnum).map A.shdr) = .ok (L.table A) := by
  have hmem : ∀ i, i ∈ f.scns.map Scn.ndx ↔ 0 < i ∧ i < L.ehdr.shnum := by
    intro i
    rw [readable.scns.mem_iff, List.mem_range'_1]
    omega
  have headers : ∀ s ∈ f.scns, s.ndx < L.ehdr.shnum ∧ s.shdr = some (L.shdr s.ndx) := by
    intro s hs
    exact ⟨((hmem _).mp (List.mem_map_of_mem hs)).2, readable.shdr s hs⟩
  obtain ⟨t, hran, hlen, hin, hout⟩ :=
    assignShdr_get (t := (List.range L.ehdr.shnum).map A.shdr) headers (by simp)
  rw [hran]
  congr 1
  apply List.ext_getElem?
  intro i
  rw [Layout.table, List.getElem?_map]
  by_cases hlt : i < L.ehdr.shnum
  · rw [List.getElem?_range hlt]
    by_cases hz : i = 0
    · rw [hout i (by rw [hmem]; omega), List.getElem?_map, List.getElem?_range hlt]
      simp [Layout.slot, hz]
    · rw [hin i ((hmem i).mpr ⟨by omega, hlt⟩)]
      simp [Layout.slot, hz]
  · rw [List.getElem?_eq_none (by omega), List.getElem?_eq_none (by simpa using hlt)]
    rfl

/-- The string table of section `p.2` with header `p.1` gets its memory and its contents. -/
def Held (A : Alloc) (pread : Word → Word → Option (List Byte)) (p : Shdr × Nat) : Prop :=
  A.malloc (.strtab p.2) = true ∧ A.malloc (.strdata p.2) = true ∧
    ∃ data, pread p.1.offset p.1.size = some data ∧ data.length = p.1.size.toNat

theorem readStrtab_some {l : List (Shdr × Nat)} {acc ts : List StrTab}
    (h : readStrtab A pread l acc = some ts) :
    (∀ p ∈ l, p.1.type = SHT_STRTAB → Held A pread p) ∧
      ∀ j, j ∈ ts.map StrTab.id ↔ j ∈ acc.map StrTab.id ∨ ∃ p ∈ l, p.1.type = SHT_STRTAB ∧ p.2 = j := by
  induction l generalizing acc with
  | nil =>
    cases h
    simp
  | cons p l ih =>
    unfold readStrtab at h
    split at h
    · rename_i hne
      obtain ⟨hheld, hids⟩ := ih h
      refine ⟨?_, ?_⟩
      · intro q hq ht
        rcases List.mem_cons.mp hq with he | hq
        · exact absurd (he ▸ ht) hne
        · exact hheld q hq ht
      · intro j
        simp [hids, hne]
    · rename_i ht
      split at h
      · cases h
      · rename_i hm
        split at h
        · cases h
        · rename_i data hdata
          split at h
          · cases h
          · rename_i hlen
            obtain ⟨hheld, hids⟩ := ih h
            refine ⟨?_, ?_⟩
            · intro q hq htq
              rcases List.mem_cons.mp hq with he | hq
              · subst he
                simp only [Bool.or_eq_true, Bool.not_eq_true', not_or, Bool.not_eq_false] at hm
                exact ⟨hm.1, hm.2, data, hdata, by simpa using hlen⟩
              · exact hheld q hq htq
            · intro j
              have ht : p.1.type = SHT_STRTAB := by simpa using ht
              simp [hids, ht, or_assoc, or_left_comm, eq_comm]

theorem readStrtab_none {l : List (Shdr × Nat)} {acc : List StrTab}
    (h : readStrtab A pread l acc = none) :
    ∃ p ∈ l, p.1.type = SHT_STRTAB ∧ ¬Held A pread p := by
  induction l generalizing acc with
  | nil => cases h
  | cons p l ih =>
    have later : (∃ q ∈ l, q.1.type = SHT_STRTAB ∧ ¬Held A pread q) →
        ∃ q ∈ p :: l, q.1.type = SHT_STRTAB ∧ ¬Held A pread q := by
      intro h
      obtain ⟨q, hq, hbad⟩ := h
      exact ⟨q, List.mem_cons_of_mem p hq, hbad⟩
    unfold readStrtab at h
    split at h
    · exact later (ih h)
    · rename_i ht
      have ht : p.1.type = SHT_STRTAB := by simpa using ht
      split at h
      · rename_i hm
        refine ⟨p, List.mem_cons_self, ht, ?_⟩
        intro hheld
        simp [hheld.1, hheld.2.1] at hm
      · split at h
        · rename_i hnone
          refine ⟨p, List.mem_cons_self, ht, ?_⟩
          intro hheld
          obtain ⟨data, hdata, _⟩ := hheld.2.2
          rw [hnone] at hdata
          cases hdata
        · rename_i data hsome
          split at h
          · rename_i hlen
            refine ⟨p, List.mem_cons_self, ht, ?_⟩
            intro hheld
            obtain ⟨data', hdata, hl⟩ := hheld.2.2
            rw [hsome] at hdata
            cases hdata
            exact hlen hl
          · exact later (ih h)

/-- The handle once program and section headers are there. -/
def Layout.headed (L : Layout) (A : Alloc) (f : ElfFile) (clazz : Nat) : ElfHandle :=
  { L.handle f clazz with
    phdr := some ((List.range L.ehdr.phnum).map L.phdr)
    shdr := some (L.table A) }

/-- The optional last stage of `elf_load_all`. -/
def loadSymbols (A : Alloc) (e : ElfHandle) : ElfHandle := elfLoadDsymtab A (elfLoadSymtab A e)

/-- The conditions under which `elf_load_all` keeps the tables it has read. -/
structure Stored (A : Alloc) (f : ElfFile) (L : Layout) : Prop where
  phnum : 0 < L.ehdr.phnum
  shnum : 0 < L.ehdr.shnum
  phdr : A.malloc .phdr = true
  shdr : A.malloc .shdr = true
  held : ∀ i < L.ehdr.shnum, (L.slot A i).type = SHT_STRTAB → Held A f.pread (L.slot A i, i)
  strtab : ∃ i < L.ehdr.shnum, (L.slot A i).type = SHT_STRTAB

theorem elfLoadStrtab_headed :
    elfLoadStrtab A (L.headed A f clazz) =
      match readStrtab A f.pread (L.table A).zipIdx [] with
      | none => .ok none
      | some [] => .ok none
      | some strtab => .ok (some { L.headed A f clazz with strtab := strtab }) := by
  cases hread : readStrtab A f.pread (L.table A).zipIdx [] with
  | none => simp [elfLoadStrtab, elfLoadShdr, Layout.headed, Layout.handle, hread]
  | some ts =>
    cases ts with
    | nil => simp [elfLoadStrtab, elfLoadShdr, Layout.headed, Layout.handle, hread]
    | cons t ts => simp [elfLoadStrtab, elfLoadShdr, Layout.headed, Layout.handle, hread]

/-- `elf_load_all` up to the string tables. -/
theorem elfLoadAll_headers (readable : Readable f L)
    (known : clazz = ELFCLASS32 ∨ clazz = ELFCLASS64) (phnum : 0 < L.ehdr.phnum)
    (shnum : 0 < L.ehdr.shnum) (phdr : A.malloc .phdr = true) (shdr : A.malloc .shdr = true) :
    elfLoadAll A (L.handle f clazz) =
      match readStrtab A f.pread (L.table A).zipIdx [] with
      | none => .ok (false, L.handle f clazz)
      | some [] => .ok (false, L.handle f clazz)
      | some strtab => .ok (true, loadSymbols A { L.headed A f clazz with strtab := strtab }) := by
  have hclass : ¬(clazz ≠ ELFCLASS32 ∧ clazz ≠ ELFCLASS64) := by tauto
  have hphdr : elfLoadPhdr A (L.handle f clazz) =
      .ok (some { L.handle f clazz with phdr := some ((List.range L.ehdr.phnum).map L.phdr) }) := by
    simp only [elfLoadPhdr, Layout.handle, readable.phdr phnum, phdr]
    rw [if_neg (by simp), if_neg (by omega), if_neg hclass, if_neg (by simp)]
  have hshdr : elfLoadShdr A
      { L.handle f clazz with phdr := some ((List.range L.ehdr.phnum).map L.phdr) } =
      .ok (some (L.headed A f clazz)) := by
    simp only [elfLoadShdr, Layout.handle, assignShdr_table readable, shdr]
    rw [if_neg (by simp), if_neg (by omega), if_neg hclass, if_neg (by simp)]
    rfl
  have hfree : (L.headed A f clazz).freeTables = L.handle f clazz := rfl
  rw [elfLoadAll, hphdr]
  dsimp only
  rw [hshdr]
  dsimp only
  rw [elfLoadStrtab_headed]
  cases readStrtab A f.pread (L.table A).zipIdx [] with
  | none => simp only [hfree]
  | some ts =>
    cases ts with
    | nil => simp only [hfree]
    | cons t ts => rfl

theorem elfLoadAll_refuses_headers (readable : Readable f L)
    (known : clazz = ELFCLASS32 ∨ clazz = ELFCLASS64)
    (h : ¬(0 < L.ehdr.phnum ∧ 0 < L.ehdr.shnum ∧ A.malloc .phdr = true ∧ A.malloc .shdr = true)) :
    elfLoadAll A (L.handle f clazz) = .ok (false, L.handle f clazz) := by
  have hclass : ¬(clazz ≠ ELFCLASS32 ∧ clazz ≠ ELFCLASS64) := by tauto
  have hfree : ∀ phdr, ElfHandle.freeTables { L.handle f clazz with phdr := phdr } =
      L.handle f clazz := fun _ => rfl
  by_cases hp : L.ehdr.phnum = 0
  · have hnone : elfLoadPhdr A (L.handle f clazz) = .ok none := by
      simp [elfLoadPhdr, Layout.handle, hp]
    rw [elfLoadAll, hnone]
    rfl
  · by_cases hm : A.malloc .phdr = true
    · have hphdr : elfLoadPhdr A (L.handle f clazz) =
          .ok (some { L.handle f clazz with phdr := some ((List.range L.ehdr.phnum).map L.phdr) }) := by
        simp only [elfLoadPhdr, Layout.handle, readable.phdr (by omega), hm]
        rw [if_neg (by simp), if_neg hp, if_neg hclass, if_neg (by simp)]
      have hnone : elfLoadShdr A
          { L.handle f clazz with phdr := some ((List.range L.ehdr.phnum).map L.phdr) } =
          .ok none := by
        by_cases hs : L.ehdr.shnum = 0
        · simp [elfLoadShdr, Layout.handle, hs]
        · have hms : A.malloc .shdr = false := by
            by_contra hc
            exact h ⟨by omega, by omega, hm, by simpa using hc⟩
          simp only [elfLoadShdr, Layout.handle, hms]
          rw [if_neg (by simp), if_neg hs, if_neg hclass, if_pos (by simp)]
      rw [elfLoadAll, hphdr]
      dsimp only
      rw [hnone]
      rfl
    · have hm : A.malloc .phdr = false := by simpa using hm
      have hnone : elfLoadPhdr A (L.handle f clazz) = .ok none := by
        simp only [elfLoadPhdr, Layout.handle, hm]
        rw [if_neg (by simp), if_neg hp, if_neg hclass, if_pos (by simp)]
      rw [elfLoadAll, hnone]
      rfl

/-- The string tables `elf_load_strtab` reads are those of the sections of that type. -/
theorem readStrtab_stored (phnum : 0 < L.ehdr.phnum) (shnum : 0 < L.ehdr.shnum)
    (phdr : A.malloc .phdr = true) (shdr : A.malloc .shdr = true) :
    (∃ t ts, readStrtab A f.pread (L.table A).zipIdx [] = some (t :: ts)) ↔ Stored A f L := by
  constructor
  · intro h
    obtain ⟨t, ts, h⟩ := h
    obtain ⟨hheld, hids⟩ := readStrtab_some h
    have hid : t.id ∈ (t :: ts).map StrTab.id := List.mem_cons_self
    rcases (hids t.id).mp hid with hnil | ⟨p, hp, ht, _⟩
    · cases hnil
    · obtain ⟨hlt, he⟩ := mem_zipIdx_range.mp hp
      refine ⟨phnum, shnum, phdr, shdr, ?_, ⟨p.2, hlt, he ▸ ht⟩⟩
      intro i hi hti
      exact hheld (L.slot A i, i) (mem_zipIdx_range.mpr ⟨hi, rfl⟩) hti
  · intro h
    cases hr : readStrtab A f.pread (L.table A).zipIdx [] with
    | none =>
      obtain ⟨p, hp, ht, hbad⟩ := readStrtab_none hr
      obtain ⟨hlt, he⟩ := mem_zipIdx_range.mp hp
      have hheld := h.held p.2 hlt (he ▸ ht)
      rw [← he] at hheld
      exact absurd hheld hbad
    | some ts =>
      obtain ⟨_, hids⟩ := readStrtab_some hr
      obtain ⟨i, hi, ht⟩ := h.strtab
      cases ts with
      | nil =>
        have hm : i ∈ ([] : List StrTab).map StrTab.id :=
          (hids i).mpr (.inr ⟨(L.slot A i, i), mem_zipIdx_range.mpr ⟨hi, rfl⟩, ht, rfl⟩)
        cases hm
      | cons t ts => exact ⟨t, ts, rfl⟩

theorem elfLoadAll_refuses (readable : Readable f L)
    (known : clazz = ELFCLASS32 ∨ clazz = ELFCLASS64) (h : ¬Stored A f L) :
    elfLoadAll A (L.handle f clazz) = .ok (false, L.handle f clazz) := by
  by_cases hh : 0 < L.ehdr.phnum ∧ 0 < L.ehdr.shnum ∧ A.malloc .phdr = true ∧ A.malloc .shdr = true
  · obtain ⟨phnum, shnum, phdr, shdr⟩ := hh
    rw [elfLoadAll_headers readable known phnum shnum phdr shdr]
    have hn := mt (readStrtab_stored (f := f) phnum shnum phdr shdr).mp h
    cases hr : readStrtab A f.pread (L.table A).zipIdx [] with
    | none => rfl
    | some ts =>
      cases ts with
      | nil => rfl
      | cons t ts => exact absurd ⟨t, ts, hr⟩ hn
  · exact elfLoadAll_refuses_headers readable known hh

/-- What a successful `elf_load_all` leaves in the handle, but for the symbols. -/
structure Loaded (A : Alloc) (L : Layout) (e : ElfHandle) : Prop where
  shnum : e.shnum = L.ehdr.shnum
  shstrndx : e.shstrndx = L.ehdr.shstrndx
  entrypoint : e.entrypoint = L.ehdr.entry
  phdr : e.phdr = some ((List.range L.ehdr.phnum).map L.phdr)
  shdr : e.shdr = some (L.table A)
  strtab : ∀ j, j ∈ e.strtab.map StrTab.id ↔ j < L.ehdr.shnum ∧ (L.slot A j).type = SHT_STRTAB

theorem loadSymbols_loaded {e : ElfHandle} (h : Loaded A L e) : Loaded A L (loadSymbols A e) := by
  have hsym : Loaded A L (elfLoadSymtab A e) := by
    unfold elfLoadSymtab
    split
    · exact h
    · exact ⟨h.shnum, h.shstrndx, h.entrypoint, h.phdr, h.shdr, h.strtab⟩
  unfold loadSymbols elfLoadDsymtab
  split
  · exact hsym
  · exact ⟨hsym.shnum, hsym.shstrndx, hsym.entrypoint, hsym.phdr, hsym.shdr, hsym.strtab⟩

theorem elfLoadAll_accepts (readable : Readable f L)
    (known : clazz = ELFCLASS32 ∨ clazz = ELFCLASS64) (h : Stored A f L) :
    ∃ ts, readStrtab A f.pread (L.table A).zipIdx [] = some ts ∧
      elfLoadAll A (L.handle f clazz) =
        .ok (true, loadSymbols A { L.headed A f clazz with strtab := ts }) ∧
      Loaded A L (loadSymbols A { L.headed A f clazz with strtab := ts }) := by
  obtain ⟨t, ts, hr⟩ := (readStrtab_stored h.phnum h.shnum h.phdr h.shdr).mpr h
  refine ⟨t :: ts, hr, ?_, loadSymbols_loaded ⟨rfl, rfl, rfl, rfl, rfl, ?_⟩⟩
  · rw [elfLoadAll_headers readable known h.phnum h.shnum h.phdr h.shdr, hr]
  · intro j
    rw [(readStrtab_some hr).2 j]
    constructor
    · intro hj
      rcases hj with hnil | ⟨p, hp, ht, he⟩
      · cases hnil
      · obtain ⟨hlt, hs⟩ := mem_zipIdx_range.mp hp
        rw [← he]
        exact ⟨hlt, hs ▸ ht⟩
    · intro hj
      exact .inr ⟨(L.slot A j, j), mem_zipIdx_range.mpr ⟨hj.1, rfl⟩, hj.2, rfl⟩

end Elftool

end UnixProgramming.Sdb.Proofs
