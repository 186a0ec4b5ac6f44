import UnixProgramming.Sdb.Proofs.Loading

namespace UnixProgramming.Sdb.Proofs
open Lib

/-- A symbol table whose `sh_link` names no string table is not kept. -/
def RejectsLinks (e : ElfHandle) : Prop :=
  (∀ s i, (e.shdr.getD []).zipIdx.find? (fun p => p.1.type == SHT_SYMTAB) = some (s, i) →
      (∀ tab ∈ e.strtab, s.link ≠ BitVec.ofNat 64 tab.id) → e.sym = none) ∧
    ∀ s i, (e.shdr.getD []).zipIdx.find? (fun p => p.1.type == SHT_DYNSYM) = some (s, i) →
      (∀ tab ∈ e.strtab, s.link ≠ BitVec.ofNat 64 tab.id) → e.dsym = none

/-- The files `elf_load_all` refuses whatever the memory holds: there is nothing to read, a
string table cannot be read, or there is none and no memory for the one that slot 0 may feign.
`m` says which calls of `malloc` succeed. -/
inductive Refused (m : MallocSite → Bool) (f : ElfFile) (L : Layout) : Prop
  | phnum (h : L.ehdr.phnum = 0)
  | shnum (h : L.ehdr.shnum = 0)
  | phdr (h : m .phdr = false)
  | shdr (h : m .shdr = false)
  | strtab (i : Nat) (pos : 0 < i) (lt : i < L.ehdr.shnum) (type : (L.shdr i).type = SHT_STRTAB)
      (h : m (.strtab i) = false ∨ m (.strdata i) = false ∨ ¬Whole f (L.shdr i))
  | nameless (none : ∀ i, 0 < i → i < L.ehdr.shnum → (L.shdr i).type ≠ SHT_STRTAB)
      (h : m (.strtab 0) = false ∨ m (.strdata 0) = false)

section Slots
variable {A A' : Alloc} {f : ElfFile} {L : Layout} {m : MallocSite → Bool} {clazz : Nat}

theorem slot_pos {i : Nat} (hi : 0 < i) : L.slot A i = L.shdr i := by
  rw [Layout.slot, if_neg (by omega)]

theorem refused_unstored (h : Refused A.malloc f L) : ¬Stored A f L := by
  intro hs
  cases h with
  | phnum h => exact absurd hs.phnum (by omega)
  | shnum h => exact absurd hs.shnum (by omega)
  | phdr h => exact absurd hs.phdr (by simp [h])
  | shdr h => exact absurd hs.shdr (by simp [h])
  | strtab i pos lt type h =>
    have hheld := hs.held i lt (by rw [slot_pos pos]; exact type)
    rw [slot_pos pos] at hheld
    obtain ⟨htab, hdata, hwhole⟩ := hheld
    rcases h with h | h | h
    · rw [htab] at h
      cases h
    · rw [hdata] at h
      cases h
    · exact h hwhole
  | nameless none h =>
    obtain ⟨i, hi, ht⟩ := hs.strtab
    have hz : i = 0 := by
      by_contra hne
      rw [slot_pos (by omega)] at ht
      exact none i (by omega) hi ht
    subst hz
    obtain ⟨htab, hdata, _⟩ := hs.held 0 hi ht
    rcases h with h | h
    · rw [htab] at h
      cases h
    · rw [hdata] at h
      cases h

/-- Fresh memory whose slot 0 has the given name and type. -/
def stale (m : MallocSite → Bool) (name type : Word) : Alloc :=
  ⟨m, fun _ => ⟨name, type, 0, 0, 0, 0, 0, 0, 0, 0⟩, fun _ => .null⟩

/-- A file that is not refused is taken for some contents of slot 0, under any name there. -/
theorem stored_stale (empty : f.pread 0 0 = some []) (h : ¬Refused m f L) :
    ∃ type, ∀ name, Stored (stale m name type) f L := by
  have hp : 0 < L.ehdr.phnum := Nat.pos_of_ne_zero fun hz => h (.phnum hz)
  have hs : 0 < L.ehdr.shnum := Nat.pos_of_ne_zero fun hz => h (.shnum hz)
  have hmp : m .phdr = true := by
    by_contra hc
    exact h (.phdr (by simpa using hc))
  have hms : m .shdr = true := by
    by_contra hc
    exact h (.shdr (by simpa using hc))
  have hall : ∀ name type i, 0 < i → i < L.ehdr.shnum →
      (L.slot (stale m name type) i).type = SHT_STRTAB →
      Held (stale m name type) f.pread (L.slot (stale m name type) i, i) := by
    intro name type i pos lt ht
    rw [slot_pos pos] at ht ⊢
    have hok : ¬(m (.strtab i) = false ∨ m (.strdata i) = false ∨ ¬Whole f (L.shdr i)) :=
      fun hc => h (.strtab i pos lt ht hc)
    simp only [not_or, Bool.not_eq_false, not_not] at hok
    exact hok
  by_cases hsome : ∃ i, 0 < i ∧ i < L.ehdr.shnum ∧ (L.shdr i).type = SHT_STRTAB
  · obtain ⟨i, pos, lt, ht⟩ := hsome
    refine ⟨0, fun name => ⟨hp, hs, hmp, hms, ?_, ⟨i, lt, by rw [slot_pos pos]; exact ht⟩⟩⟩
    intro j hj htj
    rcases Nat.eq_zero_or_pos j with hz | hpos
    · subst hz
      cases htj
    · exact hall name 0 j hpos hj htj
  · have hmem : m (.strtab 0) = true ∧ m (.strdata 0) = true := by
      by_contra hc
      refine h (.nameless ?_ ?_)
      · exact fun i pos lt ht => hsome ⟨i, pos, lt, ht⟩
      · by_cases ht : m (.strtab 0) = true
        · exact .inr (by simpa [ht] using hc)
        · exact .inl (by simpa using ht)
    refine ⟨SHT_STRTAB, fun name => ⟨hp, hs, hmp, hms, ?_, ⟨0, hs, rfl⟩⟩⟩
    intro j hj htj
    rcases Nat.eq_zero_or_pos j with hz | hpos
    · subst hz
      exact ⟨hmem.1, hmem.2, [], empty, rfl⟩
    · exact hall name SHT_STRTAB j hpos hj htj

theorem readStrtab_congr (malloc : A.malloc = A'.malloc)
    {pread : Word → Word → Option (List Byte)} {l : List (Shdr × Nat)} {acc : List StrTab} :
    readStrtab A pread l acc = readStrtab A' pread l acc := by
  induction l generalizing acc with
  | nil => rfl
  | cons p l ih => simp only [readStrtab, malloc, ih]

/-- Two heaps that agree on slot 0 and on the `strtab` field of fresh symbol tables give the
same tables: nothing else is read before it is written. -/
theorem elfLoadAll_congr (readable : Readable f L) (known : clazz = ELFCLASS32 ∨ clazz = ELFCLASS64)
    (malloc : A.malloc = A'.malloc) (slot : A.shdr 0 = A'.shdr 0)
    (strtab : A.symStrtab = A'.symStrtab) :
    elfLoadAll A (L.handle f clazz) = elfLoadAll A' (L.handle f clazz) := by
  have htable : L.table A = L.table A' := by
    unfold Layout.table
    congr 1
    funext i
    unfold Layout.slot
    rw [slot]
  have hsymbols : ∀ e, loadSymbols A e = loadSymbols A' e := by
    intro e
    simp only [loadSymbols, elfLoadDsymtab, elfLoadSymtab, loadFirst, elfLoadSymtabInternal,
      malloc, strtab]
  by_cases hh : 0 < L.ehdr.phnum ∧ 0 < L.ehdr.shnum ∧ A.malloc .phdr = true ∧ A.malloc .shdr = true
  · obtain ⟨phnum, shnum, phdr, shdr⟩ := hh
    rw [elfLoadAll_headers readable known phnum shnum phdr shdr,
      elfLoadAll_headers readable known phnum shnum (malloc ▸ phdr) (malloc ▸ shdr)]
    simp only [Layout.headed, htable, readStrtab_congr malloc, hsymbols]
  · rw [elfLoadAll_refuses_headers readable known hh,
      elfLoadAll_refuses_headers readable known (malloc ▸ hh)]

theorem table_zero (hs : 0 < L.ehdr.shnum) : (L.table A)[0]? = some (A.shdr 0) := by
  rw [Layout.table, List.getElem?_map, List.getElem?_range hs]
  rfl

end Slots

/-- Whatever fresh memory holds, `elf_load_all` gives the same result and the same tables, the
section table is that of the file and no symbol table has a bad link, exactly when the file is
one that it refuses anyway: in all others slot 0 of the section table is never written. -/
theorem load_all_deterministic_iff (f : ElfFile) (L : Layout) (readable : Readable f L)
    (clazz : Nat) (known : clazz = ELFCLASS32 ∨ clazz = ELFCLASS64) (m : MallocSite → Bool)
    (empty : f.pread 0 0 = some []) :
    ((∀ A A' : Alloc, A.malloc = m → A'.malloc = m →
        elfLoadAll A (L.handle f clazz) = elfLoadAll A' (L.handle f clazz)) ∧
      ∀ (A : Alloc) (e : ElfHandle), A.malloc = m →
        elfLoadAll A (L.handle f clazz) = .ok (true, e) →
        (∀ i < L.ehdr.shnum, (e.shdr.getD [])[i]? = some (L.shdr i)) ∧ RejectsLinks e) ↔
      Refused m f L := by
  constructor
  · intro h
    by_contra hr
    obtain ⟨type, hstored⟩ := stored_stale empty hr
    obtain ⟨_, _, hran₀, hloaded₀⟩ := elfLoadAll_accepts readable known (hstored 0)
    obtain ⟨_, _, hran₁, hloaded₁⟩ := elfLoadAll_accepts readable known (hstored 1)
    have hsame := h.1 (stale m 0 type) (stale m 1 type) rfl rfl
    rw [hran₀, hran₁] at hsame
    obtain ⟨_, he⟩ := Prod.mk.inj (Except.ok.inj hsame)
    have htab := hloaded₁.shdr
    rw [← he, hloaded₀.shdr] at htab
    have hslot := congrArg (·[0]?) (Option.some.inj htab)
    simp only [table_zero (hstored 0).shnum, stale] at hslot
    cases hslot
  · intro hr
    have hno : ∀ A : Alloc, A.malloc = m →
        elfLoadAll A (L.handle f clazz) = .ok (false, L.handle f clazz) := by
      intro A hA
      exact elfLoadAll_refuses readable known (refused_unstored (hA ▸ hr))
    refine ⟨?_, ?_⟩
    · intro A A' hA hA'
      rw [hno A hA, hno A' hA']
    · intro A e hA hran
      rw [hno A hA] at hran
      cases hran

/-- A file whose section headers are stripped. -/
def sectionless : ElfFile := { Demo.static with ehdr := some ⟨2, 1, 0, 0, 0x401000⟩, scns := [] }

theorem load_all_deterministic_demo :
    elfLoadAll (stale (fun _ => true) 0 0)
        (Layout.handle { staticLayout with ehdr := ⟨2, 1, 0, 0, 0x401000⟩ } sectionless 2) =
      elfLoadAll (stale (fun _ => true) 1 0)
        (Layout.handle { staticLayout with ehdr := ⟨2, 1, 0, 0, 0x401000⟩ } sectionless 2) := by
  have readable : Readable sectionless { staticLayout with ehdr := ⟨2, 1, 0, 0, 0x401000⟩ } :=
    ⟨rfl, fun _ => rfl, by decide, fun s hs => by cases hs⟩
  exact ((load_all_deterministic_iff sectionless _ readable 2 (.inr rfl) (fun _ => true) rfl).mpr
    (.shnum rfl)).1 _ _ rfl rfl

/-- The same executable read into two heaps: the null section has a name in the one. -/
theorem null_section_from_heap : Readable Demo.static staticLayout ∧
    elfLoadAll (stale (fun _ => true) 0 0) (staticLayout.handle Demo.static 2) ≠
      elfLoadAll (stale (fun _ => true) 1 0) (staticLayout.handle Demo.static 2) := by
  refine ⟨static_readable, ?_⟩
  intro h
  have hshdr := congrArg
    (fun r : Except Halt (Bool × ElfHandle) => r.toOption.bind fun p => p.2.shdr) h
  revert hshdr
  decide

end UnixProgramming.Sdb.Proofs
