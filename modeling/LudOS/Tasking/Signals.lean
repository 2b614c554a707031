import LudOS.Tasking.CurrentSpace

/-!
# Signals

`Process::execute_sighandler` and `exit_signal` on the whole kernel: the address spaces of all
processes, and the saved contexts of every process. A handler is entered on the stack of its
process, which the kernel maps in place of that of the running one.

Of the saved registers only the stack pointer is kept, and the bytes that are pushed onto a stack
are left out. A stack pointer of the user may lead into the kernel. What a write there overwrites is
no part of the model, and it counts as a fault.
-/

namespace LudOS.Tasking.Signals

open Lib Mem PageMapping

/-! ## State -/

/-- `ProcessArchContext`: `userRegs` is the stack pointer in `user_regs`, if that is no null
pointer. -/
structure ArchContext where
  userRegs : Option Nat := none
  deriving DecidableEq, Repr

/-- `ProcessData::SigContext`. -/
structure SigContext where
  cpuContext : ArchContext
  returningProcess : Nat
  deriving DecidableEq, Repr

/-- The members of a process that concern signals; the front of `sigContext` is the top of the
stack. -/
structure ProcessSignals where
  archContext : Option ArchContext := some {}
  sigContext : List SigContext := []

/-- The address spaces, and the signal state of every process. -/
structure Kernel where
  spaces : AddressSpaces.System
  signals : Nat → ProcessSignals

/-- A function of the kernel. -/
abbrev KernelAction := EStateM Fault Kernel

/-- The kernel with the signal state of one process replaced. -/
def Kernel.setSignals (k : Kernel) (pid : Nat) (signals : ProcessSignals) : Kernel :=
  { k with signals := Function.update k.signals pid signals }

section

variable {α : Type}

/-- A function on address spaces. -/
def onSpaces (x : AddressSpaces.SystemAction α) : KernelAction α :=
  zoom Kernel.spaces (fun spaces k => { k with spaces }) x

end

/-! ## Handlers -/

/-- The kernel writes a byte of user memory; without a page there is a page fault of the kernel,
which panics. -/
def touch (addr : Nat) : KernelAction Unit := do
  let k ← get
  check .outOfBounds (addr < kernelVirtualBase)
  check .panic ((k.spaces.paging.entry addr).present = true)

/-- `Process::push_onto_stack` of a value of the given size. -/
def pushOntoStack (pid size : Nat) : KernelAction Unit := do
  let k ← get
  match (k.signals pid).archContext with
  | some ⟨some esp⟩ => do
    loop (fun i => touch (wadd (wsub esp size) i)) 0 size
    set (k.setSignals pid { k.signals pid with archContext := some ⟨some (wsub esp size)⟩ })
  | _ => throw .invalidPointer

/-- The sizes of what `execute_sighandler` pushes: `siginfo_t`, `ProcessArchContext`, two addresses
and `SignalTrampolineInfo`. -/
def signalFrame : List Nat := [64, 528, 4, 4, 16]

section

variable (it : AddressSpaces.Iteration)

/-- `Process::execute_sighandler` on the process `pid`. -/
def executeSighandler (pid returningPid : Nat) : KernelAction Unit := do
  let k ← get
  match (k.signals pid).archContext with
  | none => throw .assertion
  | some ⟨none⟩ => throw .invalidPointer
  | some context => do
    set (k.setSignals pid { k.signals pid with
      sigContext := ⟨context, returningPid⟩ :: (k.signals pid).sigContext })
    onSpaces (AddressSpaces.switchMappings it k.spaces.current pid)
    each (pushOntoStack pid) signalFrame
    onSpaces (AddressSpaces.switchMappings it pid k.spaces.current)

/-- `Process::exit_signal` of the current process. -/
def exitSignal : KernelAction Unit := do
  let k ← get
  let pid := k.spaces.current
  match (k.signals pid).sigContext with
  | [] => throw .assertion
  | top :: rest =>
    match top.cpuContext.userRegs, (k.signals pid).archContext with
    | some esp, some ⟨some _⟩ => do
      set (k.setSignals pid ⟨some ⟨some esp⟩, rest⟩)
      (if pid ≠ top.returningProcess then
        onSpaces (AddressSpaces.taskSwitch it top.returningProcess) else pure ())
    | _, _ => throw .invalidPointer

end

/-! ## The stack -/

section

variable {it : AddressSpaces.Iteration} {k k' : Kernel} {pid : Nat}

theorem Kernel.signals_setSignals (k : Kernel) (pid : Nat) (signals : ProcessSignals) :
    (k.setSignals pid signals).signals pid = signals := Function.update_self _ _ _

/-- The kernel can write the byte. -/
def Touchable (paging : PageTables) (addr : Nat) : Prop :=
  addr < kernelVirtualBase ∧ (paging.entry addr).present = true

theorem run_touch_eq_ok {addr : Nat} :
    (touch addr).run k = .ok () k' ↔ Touchable k.spaces.paging addr ∧ k = k' := by
  unfold touch
  rw [run_get_bind, run_check_bind_eq_ok, run_check_eq_ok, ← and_assoc]
  rfl

theorem run_pushOntoStack_eq_ok {size esp : Nat}
    (hesp : (k.signals pid).archContext = some ⟨some esp⟩) :
    (pushOntoStack pid size).run k = .ok () k' ↔
      (∀ i < size, Touchable k.spaces.paging (wadd (wsub esp size) i)) ∧
        k' = k.setSignals pid
          { k.signals pid with archContext := some ⟨some (wsub esp size)⟩ } := by
  have hloop : ∀ r, (loop (fun i => touch (wadd (wsub esp size) i)) 0 size).run k = .ok () r ↔
      (∀ i < size, Touchable k.spaces.paging (wadd (wsub esp size) i)) ∧ k = r := by
    intro r
    rw [run_loop_test fun i t => run_touch_eq_ok]
    simp
  unfold pushOntoStack
  rw [run_get_bind, hesp]
  rw [run_bind_eq_ok]
  constructor
  · rintro ⟨⟨⟩, r, htouch, hset⟩
    obtain ⟨htests, rfl⟩ := (hloop r).mp htouch
    cases hset
    exact ⟨htests, rfl⟩
  · rintro ⟨htests, rfl⟩
    exact ⟨(), k, (hloop k).mpr ⟨htests, rfl⟩, rfl⟩

/-! ## Entering and leaving a handler -/

/-- The kernel after the context of a process has been saved. -/
def Kernel.saved (k : Kernel) (pid returningPid : Nat) (context : ArchContext) : Kernel :=
  k.setSignals pid { k.signals pid with
    sigContext := ⟨context, returningPid⟩ :: (k.signals pid).sigContext }

/-- The parts of `execute_sighandler`. -/
theorem run_executeSighandler_eq_ok {returningPid : Nat} :
    (executeSighandler it pid returningPid).run k = .ok () k' ↔ ∃ esp r r',
      (k.signals pid).archContext = some ⟨some esp⟩ ∧
      (onSpaces (AddressSpaces.switchMappings it k.spaces.current pid)).run
        (k.saved pid returningPid ⟨some esp⟩) = .ok () r ∧
      (each (pushOntoStack pid) signalFrame).run r = .ok () r' ∧
      (onSpaces (AddressSpaces.switchMappings it pid k.spaces.current)).run r' = .ok () k' := by
  unfold executeSighandler
  rw [run_get_bind]
  constructor
  · intro hrun
    cases hcontext : (k.signals pid).archContext with
    | none =>
      rw [hcontext] at hrun
      cases hrun
    | some context =>
      obtain ⟨userRegs⟩ := context
      rw [hcontext] at hrun
      cases userRegs with
      | none => cases hrun
      | some esp =>
        rw [run_set_bind] at hrun
        obtain ⟨⟨⟩, r, hswitch, hrun⟩ := run_bind_eq_ok.mp hrun
        obtain ⟨⟨⟩, r', hpush, hback⟩ := run_bind_eq_ok.mp hrun
        exact ⟨esp, r, r', rfl, hswitch, hpush, hback⟩
  · rintro ⟨esp, r, r', hesp, hswitch, hpush, hback⟩
    rw [hesp]
    exact (run_bind_ok hswitch).trans ((run_bind_ok hpush).trans hback)

/-! ## Return from a handler -/

/-- The kernel after the context of a process has been restored. -/
def Kernel.restored (k : Kernel) (pid esp : Nat) (rest : List SigContext) : Kernel :=
  k.setSignals pid ⟨some ⟨some esp⟩, rest⟩

theorem run_exitSignal_eq_ok : (exitSignal it).run k = .ok () k' ↔ ∃ top rest esp esp',
    (k.signals k.spaces.current).sigContext = top :: rest ∧ top.cpuContext.userRegs = some esp ∧
    (k.signals k.spaces.current).archContext = some ⟨some esp'⟩ ∧
    (if k.spaces.current ≠ top.returningProcess then
      onSpaces (AddressSpaces.taskSwitch it top.returningProcess) else pure ()).run
        (k.restored k.spaces.current esp rest) = .ok () k' := by
  unfold exitSignal
  rw [run_get_bind]
  dsimp only
  constructor
  · intro hrun
    split at hrun
    case h_1 => cases hrun
    case h_2 top rest hcontext =>
      split at hrun
      case h_1 esp esp' hregs harch =>
        exact ⟨top, rest, esp, esp', hcontext, hregs, harch, hrun⟩
      case h_2 => cases hrun
  · rintro ⟨top, rest, esp, esp', hcontext, hregs, harch, hrun⟩
    rw [hcontext]
    dsimp only
    rw [hregs, harch]
    exact hrun

end

end LudOS.Tasking.Signals
