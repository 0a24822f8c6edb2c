import Hydrangea.Cpu.InterruptFrames
import Hydrangea.Syscalls.Syscall

/-! System calls from the functions of `libc/interface/syscall.s` in a user program, through
`isr32` and `syscall_handler`, and back.
-/

namespace Hydrangea

open X86 Memory

/-- `syscall_0` up to `int $0x80`; the functions with arguments go on with it. -/
def syscall0 : List Instr :=
  [.movFrom 4 (some .esp) .eax]
def syscall1 : List Instr :=
  .movFrom 8 (some .esp) .ebx :: syscall0
def syscall2 : List Instr :=
  .movFrom 12 (some .esp) .ecx :: syscall1
def syscall3 : List Instr :=
  .movFrom 16 (some .esp) .edx :: syscall2
def syscall4 : List Instr :=
  .movFrom 20 (some .esp) .esi :: syscall3
def syscall5 : List Instr :=
  .movFrom 24 (some .esp) .edi :: syscall4

def syscallLoads : Nat → List Instr
  | 0 => syscall0
  | 1 => syscall1
  | 2 => syscall2
  | 3 => syscall3
  | 4 => syscall4
  | _ => syscall5

/-- The argument at a position on the stack of the caller; the number of the call is at 0. -/
def argument (m : Machine) (i : Nat) : BitVec 32 :=
  m.mem.load (m.gpr .esp + BitVec.ofNat 32 (4 * (i + 1)))

/-- The registers that a function with so many arguments leaves. -/
def syscallGpr (m : Machine) (n : Nat) : Reg → BitVec 32
  | .eax => argument m 0
  | .ebx => if 1 ≤ n then argument m 1 else m.gpr .ebx
  | .ecx => if 2 ≤ n then argument m 2 else m.gpr .ecx
  | .edx => if 3 ≤ n then argument m 3 else m.gpr .edx
  | .esi => if 4 ≤ n then argument m 4 else m.gpr .esi
  | .edi => if 5 ≤ n then argument m 5 else m.gpr .edi
  | r => m.gpr r

theorem run_syscallLoads (m : Machine) {n : Nat} (count : n ≤ 5)
    : run m (syscallLoads n) = { m with gpr := syscallGpr m n } := by
  have gpr : (run m (syscallLoads n)).gpr = syscallGpr m n := by
    funext r
    interval_cases n <;> cases r <;>
      simp [syscallLoads, syscall0, syscall1, syscall2, syscall3, syscall4, syscall5, syscallGpr,
        argument, exec, Machine.set, Machine.operand]
  rw [← gpr]
  interval_cases n <;> rfl

/-- The parameters that `syscall_handler` makes of a `registers_t`. -/
def Registers.params (r : Registers) : SyscallParams where
  eax := r.eax.toNat
  ebx := r.ebx.toNat
  ecx := r.ecx.toNat
  edx := r.edx.toNat
  esi := r.esi.toNat
  edi := r.edi.toNat
  ebp := r.ebp.toNat

/-- The registers that `syscall_handler` writes back. -/
def SyscallParams.gpr (p : SyscallParams) : Reg → BitVec 32
  | .eax => BitVec.ofNat 32 p.eax
  | .ebx => BitVec.ofNat 32 p.ebx
  | .ecx => BitVec.ofNat 32 p.ecx
  | .edx => BitVec.ofNat 32 p.edx
  | .esi => BitVec.ofNat 32 p.esi
  | .edi => BitVec.ofNat 32 p.edi
  | .ebp => BitVec.ofNat 32 p.ebp
  | .esp => 0

namespace Kernel

variable {δ : Type}

/-- A computation that returns from a system call changes none of its parameters but `eax`. -/
def ReturnsInEax (r : SyscallParams) (x : KernelM δ Ended) : Prop :=
  ∀ s p, (x s).result = some (.returns p) → p = { r with eax := p.eax }

variable {r : SyscallParams}

theorem returnsInEax_bind {α : Type} {x : KernelM δ α} {f : α → KernelM δ Ended}
    (then' : ∀ a, ReturnsInEax r (f a))
    : ReturnsInEax r (x >>= f) := by
  intro s p ended
  obtain ⟨a, first⟩ := Traced.returned_of_bind ended
  rw [(Traced.result_bind first).1] at ended
  exact then' a _ p ended

theorem returnsInEax_eax (v : Nat)
    : ReturnsInEax r (pure (.returns { r with eax := v }) : KernelM δ Ended) := by
  rintro s p ended
  cases ended
  rfl

theorem returnsInEax_pure : ReturnsInEax r (pure (.returns r) : KernelM δ Ended) :=
  returnsInEax_eax r.eax

theorem returnsInEax_other {ended : Ended} (other : ∀ p, ended ≠ .returns p)
    : ReturnsInEax r (pure ended : KernelM δ Ended) := by
  rintro s p same
  cases same
  exact absurd rfl (other p)

theorem sysClose_returnsInEax (r : SyscallParams)
    : ReturnsInEax r (sysClose r : KernelM δ Ended) := by
  refine returnsInEax_bind (fun task => returnsInEax_bind (fun s => ?_))
  change ReturnsInEax r (if (s.fileDescriptors task).listGet r.ebx = 0 then _ else _)
  split
  · exact returnsInEax_eax _
  · exact returnsInEax_bind (fun _ => returnsInEax_bind (fun _ => returnsInEax_bind (fun _ =>
      returnsInEax_eax _)))

theorem sysWait_returnsInEax (c : Supplies) (r : SyscallParams)
    : ReturnsInEax r (sysWait c r : KernelM δ Ended) := by
  refine returnsInEax_bind (fun s => returnsInEax_bind (fun t => ?_))
  cases t with
  | none => exact returnsInEax_bind (fun _ => returnsInEax_eax _)
  | some t => exact returnsInEax_bind (fun _ => returnsInEax_other nofun)

/-- No handler changes a parameter but `eax`. -/
theorem syscallHandler_returnsInEax (c : Supplies) (r : SyscallParams)
    : ReturnsInEax r (syscallHandler c r : KernelM δ Ended) := by
  refine returnsInEax_bind (fun _ => ?_)
  intro s p ended
  obtain ⟨handler, found⟩ := Traced.returned_of_bind ended
  rw [(Traced.result_bind found).1] at ended
  have listed : some handler ∈ syscallList (δ := δ) c := by
    have here : (syscallList (δ := δ) c)[r.eax]?.join = some handler := found
    exact List.mem_of_getElem? (Option.join_eq_some_iff.mp here)
  simp only [syscallList, List.mem_cons, List.not_mem_nil, or_false, Option.some.injEq,
    reduceCtorEq, false_or] at listed
  rcases listed with rfl | rfl | rfl | rfl | rfl | rfl | rfl | rfl | rfl | rfl | rfl | rfl | rfl
  · exact returnsInEax_pure _ p ended
  · refine returnsInEax_bind (fun _ => ?_) _ p ended
    exact returnsInEax_bind (fun _ => returnsInEax_bind (fun _ => returnsInEax_bind (fun _ =>
      returnsInEax_bind (fun _ => returnsInEax_other nofun))))
  · exact returnsInEax_bind (fun _ => returnsInEax_eax _) _ p ended
  · exact returnsInEax_bind (fun _ => returnsInEax_pure) _ p ended
  · refine returnsInEax_bind (fun _ => ?_) _ p ended
    exact returnsInEax_bind (fun _ => returnsInEax_bind (fun _ => returnsInEax_bind (fun _ =>
      returnsInEax_bind (fun _ => returnsInEax_eax _))))
  · exact sysClose_returnsInEax r _ p ended
  · exact returnsInEax_bind (fun _ => returnsInEax_bind (fun _ => returnsInEax_eax _)) _ p ended
  · exact returnsInEax_bind (fun _ => returnsInEax_bind (fun _ => returnsInEax_eax _)) _ p ended
  · refine returnsInEax_bind (fun _ => returnsInEax_bind (fun _ => ?_)) _ p ended
    exact returnsInEax_bind (fun _ => returnsInEax_bind (fun _ => returnsInEax_bind (fun _ =>
      returnsInEax_bind (fun _ => returnsInEax_bind (fun _ => returnsInEax_bind (fun _ =>
        returnsInEax_eax _))))))
  · exact sysWait_returnsInEax c r _ p ended
  · refine returnsInEax_bind (fun _ => returnsInEax_bind (fun _ => ?_)) _ p ended
    exact returnsInEax_bind (fun _ => returnsInEax_bind (fun _ => returnsInEax_bind (fun _ =>
      returnsInEax_bind (fun _ => returnsInEax_pure))))
  · refine returnsInEax_bind (fun _ => returnsInEax_bind (fun _ => ?_)) _ p ended
    exact returnsInEax_bind (fun _ => returnsInEax_bind (fun _ => returnsInEax_bind (fun _ =>
      returnsInEax_pure)))
  · exact returnsInEax_pure _ p ended

end Kernel

def callParams (m : Machine) (n : Nat) : SyscallParams where
  eax := (syscallGpr m n .eax).toNat
  ebx := (syscallGpr m n .ebx).toNat
  ecx := (syscallGpr m n .ecx).toNat
  edx := (syscallGpr m n .edx).toNat
  esi := (syscallGpr m n .esi).toNat
  edi := (syscallGpr m n .edi).toNat
  ebp := (m.gpr .ebp).toNat

theorem returned_gpr {m : Machine} {n : Nat} {p : SyscallParams}
    (returned : p = { callParams m n with eax := p.eax }) (r : Reg) (general : r ≠ .esp)
    : p.gpr r = Function.update (syscallGpr m n) .eax (BitVec.ofNat 32 p.eax) r := by
  rw [returned]
  cases r <;>
    simp [SyscallParams.gpr, callParams, syscallGpr, BitVec.ofNat_toNat] at general ⊢

section

variable (address : Stub → BitVec 32) (tss : BitVec 32) (m : Memory)

/-- A call of `syscall_0` to `syscall_5` from a user program reaches `syscall_handler` with its
number and arguments; behind the call the program goes on with the result in `eax`. The registers
of the arguments keep them, also those that a function in C is to preserve. The four stages are
composed: the function loads the registers, the interrupt saves them, the wrapper restores them but
for the result, and the function returns.
-/
theorem syscall_returns {c : Cpu} {n : Nat} (count : n ≤ 5) (ret : BitVec 32) (user : c.cpl ≠ 0)
    (runs : (kernelTables address tss m).Runs c) (prepared : Prepared tss c)
    : ∃ c₁, (kernelTables address tss m).interrupt
          { c with toMachine := { run c.toMachine (syscallLoads n) with eip := ret } } 128 true none
          = .ok c₁
        ∧ c₁.eip = address (.isr 32)
        ∧ (c₁.run (Stub.isr 32).entry).top = frameAt tss c
        ∧ (Registers.load (c₁.run (Stub.isr 32).entry).mem (frameAt tss c)).intNum = 0x20
        ∧ (Registers.load (c₁.run (Stub.isr 32).entry).mem (frameAt tss c)).params
          = callParams c.toMachine n
        ∧ ∀ (δ : Type) (supplies : Supplies) (s : Kernel δ) (p : SyscallParams) (c' : Cpu),
          (Kernel.syscallHandler supplies (callParams c.toMachine n) s).result = some (.returns p)
          → Serves (frameAt tss c) (c₁.run (Stub.isr 32).entry) c' p.gpr
          → ∃ c₂, (kernelTables address tss m).iret (c'.run handlerRestore) = .ok c₂
            ∧ c₂.eip = ret
            ∧ c₂.exec (.basic .ret)
              = { c with
                  gpr := Function.update
                    (Function.update (syscallGpr c.toMachine n) .eax (BitVec.ofNat 32 p.eax))
                    .esp (c.gpr .esp + 4)
                  eip := c'.mem.load (c.gpr .esp)
                  mem := c'.mem } := by
  rw [run_syscallLoads c.toMachine count]
  generalize calls : (Cpu.mk { c.toMachine with gpr := syscallGpr c.toMachine n, eip := ret } c.ss)
    = c₀
  have runs' : (kernelTables address tss m).Runs c₀ := by
    subst calls
    exact ⟨runs.code, runs.stack, runs.data⟩
  have same : frameAt tss c₀ = frameAt tss c ∧ frameTop tss c₀ = frameTop tss c := by
    subst calls
    have user' : (Cpu.mk { c.toMachine with gpr := syscallGpr c.toMachine n, eip := ret } c.ss).cpl
        ≠ 0 := user
    have top : frameTop tss
        (Cpu.mk { c.toMachine with gpr := syscallGpr c.toMachine n, eip := ret } c.ss)
        = frameTop tss c := by
      rw [frameTop, if_neg user', frameTop, if_neg user]
    rw [frameAt, top, frameAt]
    exact ⟨rfl, rfl⟩
  have prepared' : Prepared tss c₀ := by
    refine ⟨?_, ?_, same.2 ▸ prepared.room⟩
    · subst calls
      exact prepared.ss0
    · subst calls
      exact prepared.limit
  have stub : stubOf (128#8).toNat = some (.isr 32) := by decide
  have coded : (none : Option (BitVec 32)).isSome = (Stub.isr 32).leavesCode := by decide
  have kept : ((entered address tss c₀ 128 none).run (Stub.isr 32).entry).top = frameAt tss c₀
      ∧ (Registers.load ((entered address tss c₀ 128 none).run (Stub.isr 32).entry).mem
          (frameAt tss c₀)).above c₀
        = Registers.of c₀ (Stub.isr 32).intNum 0 :=
    frame_entered address tss prepared' coded
  rw [same.1] at kept
  obtain ⟨top, frame⟩ := kept
  refine ⟨entered address tss c₀ 128 none,
    interrupt_prepared address tss m prepared' stub (fun _ => .inr rfl),
    entered_eip address tss stub, top, ?_, ?_, ?_⟩
  · exact congrArg Registers.intNum frame
  · have params := congrArg Registers.params frame
    subst calls
    exact params
  · intro δ supplies s p c' returned serves
    have gpr := returned_gpr (Kernel.syscallHandler_returnsInEax supplies _ s p returned)
    rw [← same.1] at serves
    refine ⟨_, resumes_entered address tss m runs' prepared' coded serves, ?_, ?_⟩
    · subst calls
      rfl
    · subst calls
      have esp : Function.update p.gpr .esp (c.gpr .esp) .esp = c.gpr .esp :=
        Function.update_self Reg.esp _ p.gpr
      have gpr' : Function.update (Function.update p.gpr .esp (c.gpr .esp)) .esp (c.gpr .esp + 4)
          = Function.update
              (Function.update (syscallGpr c.toMachine n) .eax (BitVec.ofNat 32 p.eax))
              .esp (c.gpr .esp + 4) := by
        funext r
        by_cases stack : r = .esp
        · rw [stack, Function.update_self, Function.update_self]
        · rw [Function.update_of_ne stack, Function.update_of_ne stack,
            Function.update_of_ne stack, gpr r stack]
      rw [← gpr']
      change Cpu.mk (Machine.mk (Function.update (Function.update p.gpr .esp (c.gpr .esp)) .esp
          (Function.update p.gpr .esp (c.gpr .esp) .esp + 4)) c.seg c.cs
          (c'.mem.load (Function.update p.gpr .esp (c.gpr .esp) .esp)) c.eflags c'.mem) c.ss = _
      rw [esp]

theorem syscall_returns_user
    : ∃ c₁, (kernelTables (fun _ => 0x100000) 0x10000 (fun _ => 0)).interrupt
          { userCpu with
            toMachine := { run userCpu.toMachine (syscallLoads 3) with eip := 0x300010 } }
          128 true none = .ok c₁
        ∧ (Registers.load (c₁.run (Stub.isr 32).entry).mem (frameAt 0x10000 userCpu)).params
          = callParams userCpu.toMachine 3 := by
  obtain ⟨c₁, entered, -, -, -, params, -⟩ :=
    syscall_returns (fun _ => 0x100000) 0x10000 (fun _ => 0) (show 3 ≤ 5 by decide) 0x300010
      (show userCpu.cpl ≠ 0 by decide) (runs_user _ _ _ rfl rfl (fun _ => rfl)) prepared_userCpu
  exact ⟨c₁, entered, params⟩

end

end Hydrangea
