import Hydrangea.Lib.Restores
import Hydrangea.Lib.X86

/-! The functions of `kernel/multitasking/schedlock.s`, which mask interrupts and restore the
flags: as code of the machine, and as computations on a state with the flags.
-/

namespace Hydrangea

open X86 Memory

/-- What `cli` leaves in the flags. -/
def cli (flags : Eflags) : Eflags :=
  Eflags.ofWord (flags.val &&& ~~~0x200)

@[simp]
theorem interrupts_cli (flags : Eflags) : (cli flags).interrupts = false := by
  simp [cli, Eflags.interrupts, Eflags.ofWord]

-----------------------------------------------------------------------------------------
-- The code
-----------------------------------------------------------------------------------------

/-- A call of `get_eflags_and_cli`, which has `cli` between two of its instructions. -/
def callGetEflagsAndCli (m : Machine) : Machine :=
  let m := call m [.pushf, .pop .eax]
  run { m with eflags := cli m.eflags } [.ret]

def setEflagsCode : List Instr :=
  [.movFrom 4 (some .esp) .eax, .push .eax, .popf, .ret]

/-- The return address is kept below the stack pointer, above a word that is pushed on top of it. -/
theorem load_return {m : Memory} {sp v w : BitVec 32} (room : 8 ≤ sp.toNat)
    : ((m.store (sp - 4) v).store (sp - 4 - 4) w).load (sp - 4) = v := by
  have below : (sp - 4).toNat = sp.toNat - 4 := toNat_sub_four (by omega)
  have apart : (wordAt (sp - 4 - 4)).Apart (wordAt (sp - 4)) := by
    refine .inl ?_
    rw [wordAt, wordAt, toNat_sub_four (by omega)]
    simp only
    omega
  rw [load_store_of_apart _ _ (fits_sub_four (by omega)) (fits_sub_four (by omega)) apart,
    load_store]

/-- `get_eflags_and_cli` returns the flags and masks interrupts. -/
theorem callGetEflagsAndCli_eq {m : Machine} (room : 8 ≤ (m.gpr .esp).toNat)
    : (callGetEflagsAndCli m).gpr .eax = m.eflags.val
      ∧ (callGetEflagsAndCli m).eflags = cli m.eflags
      ∧ (callGetEflagsAndCli m).eip = m.eip
      ∧ (callGetEflagsAndCli m).gpr .esp = m.gpr .esp := by
  simp only [callGetEflagsAndCli, call, exec, run_cons, run_nil, Machine.push, Machine.set,
    Machine.drop, Machine.top, Function.update_apply, reduceCtorEq, if_true, if_false, load_store,
    BitVec.sub_add_cancel, load_return room, and_self]

/-- `set_eflags` loads its argument, the word on top of the stack, into the flags. -/
theorem call_setEflagsCode {m : Machine} (room : 8 ≤ (m.gpr .esp).toNat) (fits : Fits (m.gpr .esp))
    : (call m setEflagsCode).eflags = Eflags.ofWord m.top
      ∧ (call m setEflagsCode).eip = m.eip
      ∧ (call m setEflagsCode).gpr .esp = m.gpr .esp := by
  have apart : (wordAt (m.gpr .esp - 4)).Apart (wordAt (m.gpr .esp)) := by
    refine .inl ?_
    rw [wordAt, wordAt, toNat_sub_four (by omega)]
    simp only
    omega
  have argument : (m.mem.store (m.gpr .esp - 4) m.eip).load (m.gpr .esp) = m.mem.load (m.gpr .esp) :=
    load_store_of_apart _ _ (fits_sub_four (by omega)) fits apart
  simp only [setEflagsCode, call, exec, run_cons, run_nil, Machine.push, Machine.set, Machine.drop,
    Machine.top, Machine.operand, Option.elim_some, Function.update_apply, reduceCtorEq, if_true,
    if_false, load_store, BitVec.sub_add_cancel, load_return room, argument, and_self]

-----------------------------------------------------------------------------------------
-- The flags beside a state
-----------------------------------------------------------------------------------------

/-- A state of the kernel with the flags. -/
structure Flagged (State : Type) where
  eflags : Eflags
  state : State

namespace Flagged

variable {State : Type}

def interrupts (s : Flagged State) : Bool :=
  s.eflags.interrupts

def unflagged {α : Type} (x : StateT State Option α) : StateT (Flagged State) Option α :=
  fun s => (x s.state).map (fun r => (r.1, { s with state := r.2 }))

def getEflagsAndCli : StateT (Flagged State) Option (BitVec 32) :=
  fun s => some (s.eflags.val, { s with eflags := cli s.eflags })

def setEflags (ef : BitVec 32) : StateT (Flagged State) Option Unit :=
  fun s => some ((), { s with eflags := Eflags.ofWord ef })

def savedInterrupts (ef : BitVec 32) : Bool :=
  (Eflags.ofWord ef).interrupts

/-- What leaves the flags alone restores the interrupt-enable flag. -/
theorem restores_unflagged {α : Type} (x : StateT State Option α)
    : Restores interrupts (unflagged x) := by
  intro s a s' returns
  obtain ⟨r, -, same⟩ := Option.map_eq_some_iff.mp returns
  obtain ⟨-, rfl⟩ := Prod.mk.inj same
  rfl

/-- What `get_eflags_and_cli` returns has the interrupt-enable flag of before. -/
theorem getEflagsAndCli_saves (s : Flagged State) (ef : BitVec 32) (s' : Flagged State)
    (returns : getEflagsAndCli s = some (ef, s'))
    : savedInterrupts ef = s.interrupts := by
  obtain ⟨rfl, -⟩ := Prod.mk.inj (Option.some.inj returns)
  rw [savedInterrupts, Eflags.ofWord_val, interrupts]

/-- `set_eflags` leaves the interrupt-enable flag that was saved. -/
theorem leaves_setEflags (ef : BitVec 32)
    : Leaves interrupts (savedInterrupts ef) (setEflags ef : StateT (Flagged State) Option Unit) := by
  intro s a s' returns
  obtain ⟨-, rfl⟩ := Prod.mk.inj (Option.some.inj returns)
  rfl

/-- A computation that begins with `get_eflags_and_cli` and in the end leaves the saved flag. -/
theorem Restores.masked {β : Type} {f : BitVec 32 → StateT (Flagged State) Option β}
    (rest : ∀ ef, Leaves interrupts (savedInterrupts ef) (f ef))
    : Restores interrupts (getEflagsAndCli >>= f) :=
  Restores.save getEflagsAndCli_saves rest

/-- The end of such a computation. -/
theorem Leaves.restored {β : Type} (ef : BitVec 32) (b : β)
    : Leaves interrupts (savedInterrupts ef)
        (setEflags ef >>= fun _ => pure b : StateT (Flagged State) Option β) :=
  (leaves_setEflags ef).bind (fun _ => Restores.pure b)

end Flagged

end Hydrangea
