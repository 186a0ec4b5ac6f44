import UnixProgramming.Lib.Numeral
import UnixProgramming.Sdb.Proofs.Tracee

namespace UnixProgramming.Sdb.Proofs
open Lib

/-- The kernel's name for a field of `user_regs_struct`. -/
def Reg.name : Reg → String
  | .r15 => "r15" | .r14 => "r14" | .r13 => "r13" | .r12 => "r12" | .rbp => "rbp"
  | .rbx => "rbx" | .r11 => "r11" | .r10 => "r10" | .r9 => "r9" | .r8 => "r8" | .rax => "rax"
  | .rcx => "rcx" | .rdx => "rdx" | .rsi => "rsi" | .rdi => "rdi" | .orig_rax => "orig_rax"
  | .rip => "rip" | .cs => "cs" | .eflags => "eflags" | .rsp => "rsp" | .ss => "ss"
  | .fs_base => "fs_base" | .gs_base => "gs_base" | .ds => "ds" | .es => "es" | .fs => "fs"
  | .gs => "gs"

/-- The list of names is in the order of the kernel's structure. -/
theorem regsList_layout : regsList = Reg.layout.map Reg.name := rfl

/-- Every name finds its own register. -/
theorem findReg_name (r : Reg) : findReg (Reg.name r) = some r := by
  cases r <;> decide

theorem name_listed {name : String} : name ∈ regsList ↔ ∃ r, Reg.name r = name := by
  rw [regsList_layout, List.mem_map]
  constructor
  · rintro ⟨r, _, h⟩
    exact ⟨r, h⟩
  · rintro ⟨r, h⟩
    exact ⟨r, by cases r <;> decide, h⟩

section
variable {σ : Type} {H : Host σ} {w : World σ} {regs : Regs} {r : Reg} {word : String}

theorem set_ran (running : w.dbg.stat = .running) (held : H.getRegs w.dbg.pid w.os = some regs)
    (stores : ∀ regs', (H.setRegs w.dbg.pid regs' w.os).1 = true)
    (found : lookup H.list word = some .set) (text : String) (rest : List String) :
    handle H (.line (word :: Reg.name r :: text :: rest)) w =
      .ok () { w with os := (H.setRegs w.dbg.pid (regs.set r (strtoll text)) w.os).2 } := by
  rw [handle, exec_found H 2 found]
  simp [Builtin.exec, cmdSet, bind, EStateM.bind, dbg, running, ptraceGetRegs, ask, held,
    findReg_name, ptraceSetRegs, stores, pure, EStateM.pure]

theorem get_ran (running : w.dbg.stat = .running) (held : H.getRegs w.dbg.pid w.os = some regs)
    (found : lookup H.list word = some .get) (rest : List String) :
    handle H (.line (word :: Reg.name r :: rest)) w =
      .ok () { w with out := .reg (Reg.name r) (regs r) :: w.out } := by
  rw [handle, exec_found H 2 found]
  simp [Builtin.exec, cmdGet, bind, EStateM.bind, dbg, running, ptraceGetRegs, ask, held,
    findReg_name, print]

end

/-- `set` with the text that `get` prints for a value makes the register hold it and leaves the
others alone, so that `get` prints it again, exactly when the value is not negative as a
`long long`. -/
theorem set_get_iff {σ : Type} (H : Host σ) (w : World σ) (running : w.dbg.stat = .running)
    (regs : Regs) (held : H.getRegs w.dbg.pid w.os = some regs)
    (stores : ∀ regs', (H.setRegs w.dbg.pid regs' w.os).1 = true ∧
      H.getRegs w.dbg.pid (H.setRegs w.dbg.pid regs' w.os).2 = some regs')
    (name : String) (listed : name ∈ regsList) (v : Word) (set get : String)
    (setFound : lookup H.list set = some .set) (getFound : lookup H.list get = some .get)
    (rest rest' : List String) :
    ∃ r, Reg.name r = name ∧
      ((∃ w', handle H (.line (set :: name :: hexText v :: rest)) w = .ok () w' ∧
          H.getRegs w'.dbg.pid w'.os = some (regs.set r v) ∧
          handle H (.line (get :: name :: rest')) w' =
            .ok () { w' with out := .reg name v :: w'.out }) ↔
        v.toNat < 2 ^ 63) := by
  obtain ⟨r, rfl⟩ := name_listed.mp listed
  refine ⟨r, rfl, ?_⟩
  have ran := set_ran (r := r) running held (fun regs' => (stores regs').1) setFound (hexText v) rest
  have stored := (stores (regs.set r (strtoll (hexText v)))).2
  rw [← strtoll_hexText_iff]
  constructor
  · rintro ⟨w', ran', held', _⟩
    rw [ran] at ran'
    cases ran'
    have he := Option.some.inj (stored.symm.trans held')
    simpa using congrFun he r
  · intro h
    rw [h] at ran stored
    have again := get_ran (w := { w with os := (H.setRegs w.dbg.pid (regs.set r v) w.os).2 })
      running stored (r := r) getFound rest'
    rw [Regs.set_self] at again
    exact ⟨_, ran, stored, again⟩

/-- The machine serves register requests to a live child as the kernel does. -/
theorem machine_registers {η : Type} (T : Isa η) (fuel : Nat) (B : Host (Machine η))
    {w : World (Machine η)} {c : Child η} (live : Live w c) :
    (machineHost T fuel B).getRegs w.dbg.pid w.os = some c.regs ∧
      ∀ regs, ((machineHost T fuel B).setRegs w.dbg.pid regs w.os).1 = true ∧
        (machineHost T fuel B).getRegs w.dbg.pid
          ((machineHost T fuel B).setRegs w.dbg.pid regs w.os).2 = some regs := by
  have hc := live.child
  have hput : ∀ c', (w.os.put c').child w.dbg.pid = some c' := fun c' => (live.put c').child
  simp [machineHost, Machine.setRegs, hc, hput]

/-- A running program on the demo machine. -/
theorem exists_stopped : ∃ (w : World (Machine Demo.Hidden)) (c : Child Demo.Hidden),
    Reached (handle (Demo.host Demo.static)) (fun _ _ _ => True)
      (World.init (Demo.machine (Demo.program Demo.nops))) w ∧
    w.dbg.stat = .running ∧ Live w c := by
  obtain ⟨w, hw, hs⟩ := exists_run (handle (Demo.host Demo.static))
    (World.init (Demo.machine (Demo.program Demo.nops)))
    [.line ["load", "demo"], .line ["start"]] (fun w => checkStopped w fun _ => true)
    (by decide +kernel)
  obtain ⟨running, c, live, _⟩ := checked_stopped hs
  exact ⟨w, c, hw, running, live⟩

/-- `rbx` set to an address. -/
theorem set_get_demo : ∃ (w w' : World (Machine Demo.Hidden)) (regs : Regs),
    handle (Demo.host Demo.static) (.line ["set", "rbx", "0x401000"]) w = .ok () w' ∧
      (Demo.host Demo.static).getRegs w'.dbg.pid w'.os = some (regs.set .rbx 0x401000) ∧
      handle (Demo.host Demo.static) (.line ["g", "rbx"]) w' =
        .ok () { w' with out := .reg "rbx" 0x401000 :: w'.out } := by
  obtain ⟨w, c, _, running, live⟩ := exists_stopped
  obtain ⟨held, stores⟩ := machine_registers Demo.isa 64 (Demo.services Demo.static) live
  have hset : lookup (Demo.host Demo.static).list "set" = some .set := lookup_name _ .set
  have hget : lookup (Demo.host Demo.static).list "g" = some .get := by decide
  obtain ⟨r, hr, hiff⟩ := set_get_iff (Demo.host Demo.static) w running c.regs held stores "rbx"
    (by decide) 0x401000 "set" "g" hset hget [] []
  obtain ⟨w', ran, held', again⟩ := hiff.mpr (by decide)
  have he : r = .rbx := by
    have h := findReg_name r
    rw [hr] at h
    exact (Option.some.inj h).symm
  subst he
  exact ⟨w, w', c.regs, ran, held', again⟩

/-- The least value that is negative as a `long long`: `strtoll` stops one below it. -/
theorem set_upper_half : ∃ (w w' : World (Machine Demo.Hidden)) (regs : Regs),
    Reached (handle (Demo.host Demo.static)) (fun _ _ _ => True)
      (World.init (Demo.machine (Demo.program Demo.nops))) w ∧
    w.dbg.stat = .running ∧ hexText 0x8000000000000000 = "0x8000000000000000" ∧
    handle (Demo.host Demo.static) (.line ["set", "rax", "0x8000000000000000"]) w = .ok () w' ∧
    (Demo.host Demo.static).getRegs w'.dbg.pid w'.os = some regs ∧
    regs .rax = 0x7fffffffffffffff := by
  obtain ⟨w, c, hw, running, live⟩ := exists_stopped
  obtain ⟨held, stores⟩ := machine_registers Demo.isa 64 (Demo.services Demo.static) live
  have hset : lookup (Demo.host Demo.static).list "set" = some .set := lookup_name _ .set
  have ran := set_ran (r := .rax) (H := Demo.host Demo.static) running held
    (fun regs => (stores regs).1) hset "0x8000000000000000" []
  refine ⟨w, _, _, hw, running, by decide, ran, (stores _).2, ?_⟩
  rw [Regs.set_self]
  decide

end UnixProgramming.Sdb.Proofs
