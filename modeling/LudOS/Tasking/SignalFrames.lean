import LudOS.Tasking.Signals

/-!
# Register frames and signal handlers

The frames of user registers behind `execute_sighandler` and `exit_signal`. A process in the kernel
has a frame on its kernel stack, from which it returns to user mode. A signal makes a copy of the
frame on the heap, and the frame on the stack is changed so that the process returns into the
handler. At `sigreturn` the copy is put into the frame that is then on the stack.

Signals are well nested, and `run_handler` says what a handler leaves behind. `exit_signal` stores a
zero in `eax`, whatever has raised the signal. `handler_transparent_iff` says when nobody notices,
and `waitpid_result_lost` is a process that does.

Bytes that are pushed onto the user stack, the rest of the context of a process and the switch to
the process that has raised the signal are left out. `toSignals` forgets all registers but the stack
pointer, which is what `ProcessSignals` has of a process.
-/

namespace LudOS.Tasking.SignalFrames

open Lib
open PageMapping (signalTrampolinePage)
open Signals (signalFrame)

/-! ## State -/

/-- `registers`. -/
structure Registers where
  gs : Nat := 0
  fs : Nat := 0
  es : Nat := 0
  ds : Nat := 0
  edi : Nat := 0
  esi : Nat := 0
  ebp : Nat := 0
  dummyEsp : Nat := 0
  ebx : Nat := 0
  edx : Nat := 0
  ecx : Nat := 0
  eax : Nat := 0
  intNo : Nat := 0
  errCode : Nat := 0
  eip : Nat := 0
  cs : Nat := 0
  eflags : Nat := 0
  esp : Nat := 0
  ss : Nat := 0
  deriving DecidableEq, Repr

/-- A pointer to a frame, on the kernel stack of the process or on the heap. -/
inductive FramePtr where
  | stack (addr : Nat)
  | heap (number : Nat)
  deriving DecidableEq, Repr

/-- `ProcessData::SigContext`, of the context only `user_regs`. -/
structure SigContext where
  userRegs : FramePtr
  returningProcess : Nat
  deriving DecidableEq, Repr

/-- A process and the frames it has. `userRegs` is that of `arch_context`, and the front of
`sigContext` is the top of the stack. -/
structure Frames where
  pid : Nat
  stack : Nat → Registers
  heap : Nat → Option Registers
  /-- The number of the next frame on the heap. -/
  next : Nat
  userRegs : FramePtr
  sigContext : List SigContext

/-- A function of the process. -/
abbrev FrameAction := EStateM Fault Frames

namespace Frames

/-- The frame that a pointer is to. -/
def load (s : Frames) : FramePtr → Option Registers
  | .stack addr => some (s.stack addr)
  | .heap number => s.heap number

/-- Write to a frame. -/
def store (s : Frames) (frame : Registers) : FramePtr → Frames
  | .stack addr => { s with stack := Function.update s.stack addr frame }
  | .heap number => { s with heap := Function.update s.heap number (some frame) }

/-- The frame from which the process returns to user mode. -/
def live (s : Frames) : Option Registers := s.load s.userRegs

/-- `new registers`. -/
def allocate (s : Frames) (frame : Registers) : Frames :=
  { s with heap := Function.update s.heap s.next (some frame), next := s.next + 1 }

/-- `delete`. -/
def delete (s : Frames) : FramePtr → Frames
  | .stack _ => s
  | .heap number => { s with heap := Function.update s.heap number none }

end Frames

/-! ## Functions -/

/-- The content of a frame. -/
def deref (ptr : FramePtr) : FrameAction Registers := do
  let s ← get
  match s.load ptr with
  | none => throw .invalidPointer
  | some frame => pure frame

/-- Change the frame of `arch_context`. -/
def updateFrame (f : Registers → Registers) : FrameAction Unit := do
  let s ← get
  let frame ← deref s.userRegs
  set (s.store (f frame) s.userRegs)

/-- `Process::push_onto_stack` of a value of the given size. -/
def pushOntoStack (size : Nat) : FrameAction Unit :=
  updateFrame fun frame => { frame with esp := wsub frame.esp size }

/-- `Process::set_instruction_pointer`. -/
def setInstructionPointer (value : Nat) : FrameAction Unit :=
  updateFrame fun frame => { frame with eip := value }

/-- `Process::execute_sighandler`. The old context, with the copy of the frame, goes onto the stack
of contexts; the new one keeps the pointer. -/
def executeSighandler (returningPid : Nat) : FrameAction Unit := do
  let s ← get
  let frame ← deref s.userRegs
  set { s.allocate frame with sigContext := ⟨.heap s.next, returningPid⟩ :: s.sigContext }
  each pushOntoStack signalFrame
  setInstructionPointer signalTrampolinePage

/-- `Process::exit_signal`. It returns the process that is switched to. -/
def exitSignal : FrameAction (Option Nat) := do
  let s ← get
  match s.sigContext with
  | [] => throw .assertion
  | top :: rest => do
    let regCopy ← deref top.userRegs
    let regPtr := s.userRegs
    set ({ s.delete top.userRegs with userRegs := regPtr }.store regCopy regPtr)
    -- The return value of `kill`.
    updateFrame fun frame => { frame with eax := 0 }
    modify fun s => { s with sigContext := rest }
    pure (if s.pid ≠ top.returningProcess then some top.returningProcess else none)

/-- What raises a signal for which the process has a handler. -/
inductive Cause where
  /-- The process calls `kill` for itself. -/
  | ownKill
  /-- Another process calls `kill`. -/
  | kill (sender : Nat)
  /-- A child has died; the signal is raised by the process itself. -/
  | childDied
  /-- An exception in user mode. -/
  | fault
  deriving DecidableEq, Repr

/-- The process that `raise` is called on. -/
def Cause.sender (pid : Nat) : Cause → Nat
  | .ownKill => pid
  | .kill sender => sender
  | .childDied => pid
  | .fault => pid

/-- What happens to a process. -/
inductive Event where
  /-- The process enters the kernel, with the frame at this address. -/
  | enter (regs : Nat) (frame : Registers)
  /-- `syscall_handler` comes to its end. -/
  | finish (regs : Nat) (returns : Bool) (ret : Nat)
  /-- A signal is raised that is handled. -/
  | signal (cause : Cause)
  /-- The process calls `sigreturn`. -/
  | sigreturn
  deriving DecidableEq, Repr

/-- The event happens. -/
def Event.happen : Event → FrameAction Unit
  | .enter regs frame => modify fun s =>
      { s.store frame (.stack regs) with userRegs := .stack regs }
  | .finish regs returns ret => modify fun s =>
    if returns then s.store { s.stack regs with eax := ret } (.stack regs) else s
  | .signal cause => do
    let s ← get
    executeSighandler (cause.sender s.pid)
  | .sigreturn => do
    let _ ← exitSignal

/-- A sequence of events in which every handler that is entered is left. -/
inductive Balanced : List Event → Prop where
  | nil : Balanced []
  | enter {events : List Event} (regs : Nat) (frame : Registers) :
      Balanced events → Balanced (.enter regs frame :: events)
  | finish {events : List Event} (regs : Nat) (returns : Bool) (ret : Nat) :
      Balanced events → Balanced (.finish regs returns ret :: events)
  | handler {body events : List Event} (cause : Cause) :
      Balanced body → Balanced events →
      Balanced (.signal cause :: (body ++ .sigreturn :: events))

/-- The value with which the system call that the process is in returns, if it is in one. -/
def resultOf : List Event → Option Nat
  | [] => none
  | .enter _ _ :: _ => none
  | .finish _ returns ret :: _ => if returns then some ret else none
  | .signal _ :: events => resultOf events
  | .sigreturn :: events => resultOf events

/-- The frame that the process is to return with: that before the signal, with the result of the
system call that was interrupted. -/
def expected (cause : Cause) (body : List Event) (before : Registers) : Registers :=
  if cause = .ownKill then { before with eax := 0 }
  else { before with eax := (resultOf body).getD before.eax }

/-! ## Frames -/

section

variable {s s' s'' : Frames} {frame : Registers} {ptr q : FramePtr}

theorem load_store (s : Frames) (frame : Registers) (ptr q : FramePtr) :
    (s.store frame ptr).load q = if q = ptr then some frame else s.load q := by
  cases ptr with
  | stack addr =>
    cases q with
    | stack addr' =>
      show some (Function.update s.stack addr frame addr') = _
      rw [Function.update_apply]
      simp only [FramePtr.stack.injEq]
      split
      · rfl
      · rfl
    | heap number => simp [Frames.store, Frames.load]
  | heap number =>
    cases q with
    | stack addr => simp [Frames.store, Frames.load]
    | heap number' =>
      show Function.update s.heap number (some frame) number' = _
      rw [Function.update_apply]
      simp only [FramePtr.heap.injEq]
      rfl

theorem load_allocate (s : Frames) (frame : Registers) (q : FramePtr) :
    (s.allocate frame).load q = if q = .heap s.next then some frame else s.load q := by
  cases q with
  | stack addr => simp [Frames.allocate, Frames.load]
  | heap number =>
    show Function.update s.heap s.next (some frame) number = _
    rw [Function.update_apply]
    simp only [FramePtr.heap.injEq]
    rfl

theorem load_delete (s : Frames) (number : Nat) (q : FramePtr) :
    (s.delete (.heap number)).load q = if q = .heap number then none else s.load q := by
  cases q with
  | stack addr => simp [Frames.delete, Frames.load]
  | heap number' =>
    show Function.update s.heap number none number' = _
    rw [Function.update_apply]
    simp only [FramePtr.heap.injEq]
    rfl

@[simp] theorem userRegs_store : (s.store frame ptr).userRegs = s.userRegs := by
  cases ptr <;> rfl

@[simp] theorem sigContext_store : (s.store frame ptr).sigContext = s.sigContext := by
  cases ptr <;> rfl

@[simp] theorem next_store : (s.store frame ptr).next = s.next := by
  cases ptr <;> rfl

theorem store_store (s : Frames) (frame frame' : Registers) (ptr : FramePtr) :
    (s.store frame ptr).store frame' ptr = s.store frame' ptr := by
  cases ptr with
  | stack addr => simp [Frames.store]
  | heap number => simp [Frames.store]

/-- A frame is overwritten with itself. -/
theorem store_self (h : s.load ptr = some frame) : s.store frame ptr = s := by
  cases ptr with
  | stack addr =>
    obtain rfl : s.stack addr = frame := Option.some.inj h
    simp [Frames.store]
  | heap number =>
    have hheap : s.heap number = some frame := h
    simp [Frames.store, ← hheap]

theorem live_store (s : Frames) (frame : Registers) :
    (s.store frame s.userRegs).live = some frame := by
  unfold Frames.live
  rw [userRegs_store, load_store, if_pos rfl]

/-! ## Functions that return -/

theorem run_deref (h : s.load ptr = some frame) : (deref ptr).run s = .ok frame s := by
  unfold deref
  rw [run_get_bind, h]
  rfl

theorem run_updateFrame (h : s.live = some frame) (f : Registers → Registers) :
    (updateFrame f).run s = .ok () (s.store (f frame) s.userRegs) := by
  unfold updateFrame
  rw [run_get_bind, run_bind_ok (run_deref h)]
  rfl

theorem run_each_pushOntoStack (h : s.live = some frame) (sizes : List Nat) :
    (each pushOntoStack sizes).run s =
      .ok () (s.store { frame with esp := sizes.foldl wsub frame.esp } s.userRegs) := by
  induction sizes generalizing s frame with
  | nil =>
    show EStateM.Result.ok () s = _
    rw [List.foldl_nil, store_self h]
  | cons size sizes ih =>
    have hpush : (pushOntoStack size).run s = .ok () _ := run_updateFrame h _
    rw [each, run_bind_ok hpush, ih (live_store s _), userRegs_store, store_store]
    rfl

/-- The frame with which a handler is entered. -/
def handlerFrame (frame : Registers) : Registers :=
  { frame with esp := signalFrame.foldl wsub frame.esp, eip := signalTrampolinePage }

/-- The process after `execute_sighandler`. -/
def Frames.interrupted (s : Frames) (returningPid : Nat) (frame : Registers) : Frames :=
  Frames.store { s.allocate frame with sigContext := ⟨.heap s.next, returningPid⟩ :: s.sigContext }
    (handlerFrame frame) s.userRegs

theorem run_executeSighandler (h : s.live = some frame) (returningPid : Nat) :
    (executeSighandler returningPid).run s = .ok () (s.interrupted returningPid frame) := by
  unfold executeSighandler
  rw [run_get_bind, run_bind_ok (run_deref h), run_set_bind]
  obtain ⟨r, hr⟩ : ∃ r : Frames, r = { s.allocate frame with
    sigContext := ⟨.heap s.next, returningPid⟩ :: s.sigContext } := ⟨_, rfl⟩
  have hlive : r.live = some frame := by
    subst hr
    show (s.allocate frame).load s.userRegs = some frame
    rw [load_allocate]
    split
    · rfl
    · exact h
  have huser : r.userRegs = s.userRegs := by
    subst hr
    rfl
  unfold Frames.interrupted setInstructionPointer
  rw [← hr, run_bind_ok (run_each_pushOntoStack hlive signalFrame),
    run_updateFrame (live_store r _), userRegs_store, store_store, huser]
  rfl

/-- The process after `exit_signal`. -/
def Frames.resumed (s : Frames) (top : SigContext) (rest : List SigContext) (copy : Registers) :
    Frames :=
  { (s.delete top.userRegs).store { copy with eax := 0 } s.userRegs with sigContext := rest }

theorem run_exitSignal {top : SigContext} {rest : List SigContext} {copy : Registers}
    (hcontext : s.sigContext = top :: rest) (hcopy : s.load top.userRegs = some copy) :
    exitSignal.run s =
      .ok (if s.pid ≠ top.returningProcess then some top.returningProcess else none)
        (s.resumed top rest copy) := by
  unfold exitSignal
  rw [run_get_bind, hcontext]
  obtain ⟨r, hr⟩ : ∃ r : Frames, r = { s.delete top.userRegs with userRegs := s.userRegs } :=
    ⟨_, rfl⟩
  have huser : r.userRegs = s.userRegs := by
    subst hr
    rfl
  have hdeleted : r = s.delete top.userRegs := by
    subst hr
    cases top.userRegs with
    | stack addr => rfl
    | heap number => rfl
  have hlive : (r.store copy s.userRegs).live = some copy := by
    rw [← huser]
    exact live_store r copy
  rw [run_bind_ok (run_deref hcopy), run_set_bind, ← hr, run_bind_ok (run_updateFrame hlive _),
    run_modify_bind, userRegs_store, huser, store_store, hdeleted]
  rfl

end

/-! ## Nested handlers -/

/-- The saved frames are on the heap, each at its own place, and apart from the frame in use. -/
structure WellFormed (s : Frames) : Prop where
  live : s.live ≠ none
  fresh : ∀ n, s.next ≤ n → s.load (.heap n) = none
  saved : ∀ c ∈ s.sigContext, (∃ n, c.userRegs = .heap n) ∧ s.load c.userRegs ≠ none
  distinct : (s.sigContext.map SigContext.userRegs).Nodup
  apart : s.userRegs ∉ s.sigContext.map SigContext.userRegs

/-- The contexts of a process and the frames that they have are as before. -/
structure Kept (s s' : Frames) : Prop where
  contexts : s'.sigContext = s.sigContext
  frames : ∀ c ∈ s.sigContext, s'.load c.userRegs = s.load c.userRegs

section

variable {s s' s'' : Frames} {frame copy : Registers} {ptr q : FramePtr} {top : SigContext}
  {rest : List SigContext} {cause : Cause} {body events : List Event}

theorem Kept.trans (h : Kept s s') (h' : Kept s' s'') : Kept s s'' := by
  refine ⟨h'.contexts.trans h.contexts, fun c hc => ?_⟩
  rw [h'.frames c (h.contexts ▸ hc), h.frames c hc]

namespace WellFormed

variable (h : WellFormed s)

include h

/-- The frame of a context is another one than the frame in use. -/
theorem ne_userRegs {c : SigContext} (hc : c ∈ s.sigContext) : c.userRegs ≠ s.userRegs := by
  intro heq
  exact h.apart (heq ▸ List.mem_map_of_mem hc)

/-- A frame that is there is older than the next one on the heap. -/
theorem ne_next (hload : s.load ptr ≠ none) : ptr ≠ .heap s.next := by
  rintro rfl
  exact hload (h.fresh s.next (Nat.le_refl _))

/-- The frame of the process is overwritten. -/
theorem storeLive (frame : Registers) :
    WellFormed (s.store frame s.userRegs) ∧ Kept s (s.store frame s.userRegs) := by
  have hframes : ∀ c ∈ s.sigContext,
      (s.store frame s.userRegs).load c.userRegs = s.load c.userRegs := by
    intro c hc
    rw [load_store, if_neg (h.ne_userRegs hc)]
  refine ⟨⟨?_, ?_, ?_, ?_, ?_⟩, ⟨sigContext_store, hframes⟩⟩
  · rw [live_store]
    exact Option.some_ne_none frame
  · intro n hn
    rw [next_store] at hn
    have hne : FramePtr.heap n ≠ s.userRegs := by
      intro heq
      refine h.live ?_
      unfold Frames.live
      rw [← heq]
      exact h.fresh n hn
    rw [load_store, if_neg hne]
    exact h.fresh n hn
  · intro c hc
    rw [sigContext_store] at hc
    rw [hframes c hc]
    exact h.saved c hc
  · rw [sigContext_store]
    exact h.distinct
  · rw [sigContext_store, userRegs_store]
    exact h.apart

/-- A frame on the kernel stack is overwritten, and the process uses it or goes on with its own. -/
theorem storeStack (addr : Nat) (frame : Registers)
    (huse : s'.userRegs = .stack addr ∨ s'.userRegs = s.userRegs)
    (hload : ∀ q, s'.load q = (s.store frame (.stack addr)).load q)
    (hcontexts : s'.sigContext = s.sigContext) (hnext : s'.next = s.next) :
    WellFormed s' ∧ Kept s s' := by
  have hheap : ∀ n, s'.load (.heap n) = s.load (.heap n) := by
    intro n
    rw [hload, load_store, if_neg]
    exact FramePtr.noConfusion
  have hframes : ∀ c ∈ s.sigContext, s'.load c.userRegs = s.load c.userRegs := by
    intro c hc
    obtain ⟨⟨n, hn⟩, -⟩ := h.saved c hc
    rw [hn, hheap]
  refine ⟨⟨?_, ?_, ?_, ?_, ?_⟩, ⟨hcontexts, hframes⟩⟩
  · unfold Frames.live
    rw [hload, load_store]
    split
    · exact Option.some_ne_none frame
    · rename_i hne
      rw [huse.resolve_left hne]
      exact h.live
  · intro n hn
    rw [hheap]
    exact h.fresh n (hnext ▸ hn)
  · intro c hc
    rw [hcontexts] at hc
    rw [hframes c hc]
    exact h.saved c hc
  · rw [hcontexts]
    exact h.distinct
  · rw [hcontexts]
    rcases huse with hstack | hsame
    · intro hmem
      obtain ⟨c, hc, heq⟩ := List.mem_map.mp hmem
      obtain ⟨⟨n, hn⟩, -⟩ := h.saved c hc
      rw [hn, hstack] at heq
      cases heq
    · rw [hsame]
      exact h.apart

/-- A context is saved. -/
theorem save (frame : Registers) (returningPid : Nat) :
    WellFormed { s.allocate frame with
      sigContext := ⟨.heap s.next, returningPid⟩ :: s.sigContext } := by
  have hload : ∀ q, s.load q ≠ none → (s.allocate frame).load q = s.load q := by
    intro q hq
    rw [load_allocate, if_neg (h.ne_next hq)]
  refine ⟨?_, ?_, ?_, ?_, ?_⟩
  · show (s.allocate frame).load s.userRegs ≠ none
    rw [hload s.userRegs h.live]
    exact h.live
  · intro n hn
    have hle : s.next + 1 ≤ n := hn
    show (s.allocate frame).load (.heap n) = none
    rw [load_allocate, if_neg]
    · exact h.fresh n (by omega)
    · intro heq
      cases heq
      omega
  · intro c hc
    show (∃ n, c.userRegs = .heap n) ∧ (s.allocate frame).load c.userRegs ≠ none
    rcases List.mem_cons.mp hc with rfl | hold
    · refine ⟨⟨s.next, rfl⟩, ?_⟩
      rw [load_allocate, if_pos rfl]
      exact Option.some_ne_none frame
    · obtain ⟨hheap, hsome⟩ := h.saved c hold
      rw [hload c.userRegs hsome]
      exact ⟨hheap, hsome⟩
  · show (FramePtr.heap s.next :: s.sigContext.map SigContext.userRegs).Nodup
    refine List.nodup_cons.mpr ⟨fun hmem => ?_, h.distinct⟩
    obtain ⟨c, hc, heq⟩ := List.mem_map.mp hmem
    exact h.ne_next (h.saved c hc).2 heq
  · show s.userRegs ∉ FramePtr.heap s.next :: s.sigContext.map SigContext.userRegs
    intro hmem
    rcases List.mem_cons.mp hmem with heq | hold
    · exact h.ne_next h.live heq
    · exact h.apart hold

/-- A signal leaves the frame as it was with the new context. -/
theorem interrupted (frame : Registers) (returningPid : Nat) :
    WellFormed (s.interrupted returningPid frame) ∧
      (s.interrupted returningPid frame).sigContext = ⟨.heap s.next, returningPid⟩ :: s.sigContext ∧
      (s.interrupted returningPid frame).load (.heap s.next) = some frame ∧
      ∀ c ∈ s.sigContext, (s.interrupted returningPid frame).load c.userRegs =
        s.load c.userRegs := by
  have hsave := h.save frame returningPid
  obtain ⟨hwf, hkept⟩ := hsave.storeLive (handlerFrame frame)
  refine ⟨hwf, hkept.contexts, ?_, fun c hc => ?_⟩
  · refine (hkept.frames ⟨.heap s.next, returningPid⟩ List.mem_cons_self).trans ?_
    show (s.allocate frame).load (.heap s.next) = some frame
    rw [load_allocate, if_pos rfl]
  · refine (hkept.frames c (List.mem_cons_of_mem _ hc)).trans ?_
    show (s.allocate frame).load c.userRegs = _
    rw [load_allocate, if_neg (h.ne_next (h.saved c hc).2)]

end WellFormed

/-- The return from a handler takes the top context away. -/
theorem WellFormed.resumed (h : WellFormed s) (hcontext : s.sigContext = top :: rest) :
    WellFormed (s.resumed top rest copy) ∧
      (s.resumed top rest copy).live = some { copy with eax := 0 } ∧
      ∀ c ∈ rest, (s.resumed top rest copy).load c.userRegs = s.load c.userRegs := by
  obtain ⟨⟨number, htop⟩, -⟩ := h.saved top (hcontext ▸ List.mem_cons_self)
  have hdistinct := h.distinct
  have hapart := h.apart
  rw [hcontext, List.map_cons] at hdistinct hapart
  obtain ⟨hnew, hdistinct⟩ := List.nodup_cons.mp hdistinct
  rw [List.mem_cons, not_or] at hapart
  obtain ⟨huser, hapart⟩ := hapart
  -- What is left after the copy has been deleted.
  obtain ⟨r, hr⟩ : ∃ r : Frames, r = { s.delete top.userRegs with sigContext := rest } := ⟨_, rfl⟩
  have hload : ∀ q, r.load q = if q = top.userRegs then none else s.load q := by
    intro q
    rw [htop, ← load_delete, hr, htop]
    rfl
  have hregs : r.userRegs = s.userRegs := by
    rw [hr, htop]
    rfl
  have hwf : WellFormed r := by
    refine ⟨?_, ?_, ?_, ?_, ?_⟩
    · unfold Frames.live
      rw [hregs, hload, if_neg huser]
      exact h.live
    · intro n hn
      rw [hload]
      split
      · rfl
      · refine h.fresh n ?_
        rw [hr, htop] at hn
        exact hn
    · intro c hc
      have hc' : c ∈ rest := by
        rw [hr] at hc
        exact hc
      have hne : c.userRegs ≠ top.userRegs := fun heq => hnew (heq ▸ List.mem_map_of_mem hc')
      rw [hload, if_neg hne]
      exact h.saved c (hcontext ▸ List.mem_cons_of_mem top hc')
    · rw [hr]
      exact hdistinct
    · rw [hregs, hr]
      exact hapart
  have hresumed : s.resumed top rest copy = r.store { copy with eax := 0 } r.userRegs := by
    unfold Frames.resumed
    rw [hregs, hr]
    cases s.userRegs with
    | stack addr => rfl
    | heap number => rfl
  obtain ⟨hwf', hkept⟩ := hwf.storeLive { copy with eax := 0 }
  rw [hresumed]
  refine ⟨hwf', live_store r _, fun c hc => ?_⟩
  have hcontexts : r.sigContext = rest := by rw [hr]
  have hne : c.userRegs ≠ top.userRegs := fun heq => hnew (heq ▸ List.mem_map_of_mem hc)
  rw [hkept.frames c (hcontexts ▸ hc), hload, if_neg hne]

/-! ## Runs -/

/-- What a sequence of events returns with from every state in order. -/
def Tidy (events : List Event) : Prop :=
  ∀ s, WellFormed s → ∃ s', (each Event.happen events).run s = .ok () s' ∧ WellFormed s' ∧ Kept s s'

/-- A handler restores all registers but `eax`. -/
theorem run_handler (hbody : Tidy body) (h : WellFormed s) (hlive : s.live = some frame)
    (cause : Cause) :
    ∃ s', (each Event.happen (.signal cause :: (body ++ [.sigreturn]))).run s = .ok () s' ∧
      WellFormed s' ∧ Kept s s' ∧ s'.live = some { frame with eax := 0 } := by
  obtain ⟨hwf, hcontext, hsaved, hframes⟩ := h.interrupted frame (cause.sender s.pid)
  obtain ⟨r, hrun, hr, hkept⟩ := hbody _ hwf
  have hcontext' : r.sigContext = ⟨.heap s.next, cause.sender s.pid⟩ :: s.sigContext :=
    hkept.contexts.trans hcontext
  have hcopy : r.load (.heap s.next) = some frame := by
    rw [← hsaved]
    exact hkept.frames ⟨.heap s.next, cause.sender s.pid⟩ (hcontext ▸ List.mem_cons_self)
  obtain ⟨hwf', hlive', hframes'⟩ := @WellFormed.resumed r frame _ _ hr hcontext'
  have hsignal : (Event.signal cause).happen.run s =
      .ok () (s.interrupted (cause.sender s.pid) frame) := run_executeSighandler hlive _
  have hreturn : Event.sigreturn.happen.run r =
      .ok () (r.resumed ⟨.heap s.next, cause.sender s.pid⟩ s.sigContext frame) := by
    unfold Event.happen
    rw [run_bind_ok (run_exitSignal hcontext' hcopy)]
    rfl
  refine ⟨_, ?_, hwf', ⟨rfl, fun c hc => ?_⟩, hlive'⟩
  · rw [each, run_bind_ok hsignal, run_each_append, run_bind_ok hrun, each, run_bind_ok hreturn]
    rfl
  · rw [hframes' c hc, hkept.frames c (hcontext ▸ List.mem_cons_of_mem _ hc), hframes c hc]

theorem tidy_append (h : Tidy body) (h' : Tidy events) : Tidy (body ++ events) := by
  intro s hs
  obtain ⟨r, hrun, hr, hkept⟩ := h s hs
  obtain ⟨t, hrun', ht, hkept'⟩ := h' r hr
  refine ⟨t, ?_, ht, hkept.trans hkept'⟩
  rw [run_each_append, run_bind_ok hrun, hrun']

/-- A single event that does no harm. -/
theorem tidy_cons {e : Event}
    (h : ∀ s, WellFormed s → ∃ s', e.happen.run s = .ok () s' ∧ WellFormed s' ∧ Kept s s')
    (h' : Tidy events) : Tidy (e :: events) := by
  intro s hs
  obtain ⟨r, hrun, hr, hkept⟩ := h s hs
  obtain ⟨t, hrun', ht, hkept'⟩ := h' r hr
  refine ⟨t, ?_, ht, hkept.trans hkept'⟩
  rw [each, run_bind_ok hrun, hrun']

/-- The process enters the kernel. -/
theorem WellFormed.enter (h : WellFormed s) (regs : Nat) (frame : Registers) :
    ∃ s', (Event.enter regs frame).happen.run s = .ok () s' ∧ WellFormed s' ∧ Kept s s' := by
  refine ⟨_, rfl, ?_⟩
  exact h.storeStack regs frame (.inl rfl) (fun q => by cases q <;> rfl) rfl rfl

/-- A system call comes to its end. -/
theorem WellFormed.finish (h : WellFormed s) (regs : Nat) (returns : Bool) (ret : Nat) :
    ∃ s', (Event.finish regs returns ret).happen.run s = .ok () s' ∧ WellFormed s' ∧ Kept s s' := by
  refine ⟨_, rfl, ?_⟩
  cases returns with
  | true =>
    exact h.storeStack regs { s.stack regs with eax := ret } (.inr rfl) (fun _ => rfl) rfl rfl
  | false => exact ⟨h, rfl, fun _ _ => rfl⟩

/-- Sequences in which every handler is left return, and leave outer contexts alone. -/
theorem Balanced.tidy (h : Balanced events) : Tidy events := by
  induction h with
  | nil => exact fun s hs => ⟨s, rfl, hs, rfl, fun _ _ => rfl⟩
  | enter regs frame _ ih => exact tidy_cons (fun s hs => hs.enter regs frame) ih
  | finish regs returns ret _ ih => exact tidy_cons (fun s hs => hs.finish regs returns ret) ih
  | @handler body events cause _ _ ihbody ih =>
    have hfirst : Tidy (.signal cause :: (body ++ [.sigreturn])) := by
      intro s hs
      obtain ⟨frame, hlive⟩ := Option.ne_none_iff_exists'.mp hs.live
      obtain ⟨s', hrun, hwf, hkept, -⟩ := run_handler ihbody hs hlive cause
      exact ⟨s', hrun, hwf, hkept⟩
    have htidy := tidy_append hfirst ih
    rwa [List.cons_append, List.append_assoc, List.singleton_append] at htidy

end

section

variable {s₀ s s' : Frames} {before frame : Registers} {cause : Cause} {body events : List Event}

/-- Every event that happens leaves a process in order. -/
theorem WellFormed.happen {e : Event} (h : WellFormed s) (hrun : e.happen.run s = .ok () s') :
    WellFormed s' := by
  obtain ⟨frame, hlive⟩ := Option.ne_none_iff_exists'.mp h.live
  cases e with
  | enter regs frame' =>
    obtain ⟨r, henter, hr, -⟩ := h.enter regs frame'
    cases henter.symm.trans hrun
    exact hr
  | finish regs returns ret =>
    obtain ⟨r, hfinish, hr, -⟩ := h.finish regs returns ret
    cases hfinish.symm.trans hrun
    exact hr
  | signal cause =>
    have hsignal : (Event.signal cause).happen.run s =
        .ok () (s.interrupted (cause.sender s.pid) frame) := run_executeSighandler hlive _
    cases hsignal.symm.trans hrun
    exact (h.interrupted frame _).1
  | sigreturn =>
    obtain ⟨switch, r, hexit, hrun⟩ := run_bind_eq_ok.mp hrun
    cases hrun
    cases hcontext : s.sigContext with
    | nil =>
      unfold exitSignal at hexit
      rw [run_get_bind, hcontext] at hexit
      cases hexit
    | cons top rest =>
      have hsaved := (h.saved top (hcontext ▸ List.mem_cons_self)).2
      obtain ⟨copy, hcopy⟩ := Option.ne_none_iff_exists'.mp hsaved
      cases (run_exitSignal hcontext hcopy).symm.trans hexit
      exact (h.resumed hcontext).1

/-- The zero in `eax` is what the process is to find there. -/
theorem expected_eq_iff : { before with eax := 0 } = expected cause body before ↔
    cause = .ownKill ∨ (resultOf body).getD before.eax = 0 := by
  unfold expected
  split
  case isTrue hown => simp [hown]
  case isFalse hother =>
    simp [hother, eq_comm]

/-- After any events, a signal whose handler is left again is only unnoticed if the process has
raised it with `kill` itself, or was to find a zero in `eax` anyway. -/
theorem handler_transparent_iff (hs₀ : WellFormed s₀)
    (hevents : (each Event.happen events).run s₀ = .ok () s) (hlive : s.live = some before)
    (hbody : Balanced body) (cause : Cause) :
    ∃ s', (each Event.happen (.signal cause :: (body ++ [.sigreturn]))).run s = .ok () s' ∧
      (s'.live = some (expected cause body before) ↔
        cause = .ownKill ∨ (resultOf body).getD before.eax = 0) := by
  have hs : WellFormed s := each_preserves (fun e r r' hr hrun => hr.happen hrun) hs₀ hevents
  obtain ⟨s', hrun, -, -, hlive'⟩ := run_handler hbody.tidy hs hlive cause
  refine ⟨s', hrun, ?_⟩
  rw [hlive', Option.some.injEq, expected_eq_iff]

/-! ## Two calls -/

/-- A process in user mode. -/
def userProcess : Frames where
  pid := 2
  stack := fun _ => {}
  heap := fun _ => none
  next := 0
  userRegs := .stack 0
  sigContext := []

theorem wellFormed_userProcess : WellFormed userProcess := by
  refine ⟨Option.some_ne_none _, fun _ _ => rfl, ?_, List.nodup_nil, List.not_mem_nil⟩
  intro c hc
  cases hc

/-- The frame of a call of `kill(2, SIGUSR1)`. -/
def killFrame : Registers := { eax := 37, ebx := 2, ecx := 10, esp := 0xb0000000, eip := 0x8000000 }

/-- The frame of a call of `sigreturn`. -/
def sigreturnFrame : Registers := { eax := 119, esp := 0xa0000000, eip := signalTrampolinePage }

/-- The frame of a call of `waitpid`. -/
def waitFrame : Registers := { eax := 7, ebx := 3, esp := 0xb0000000, eip := 0x8000000 }

/-- A process that calls `kill` for itself finds that it has returned zero. -/
theorem handler_transparent_kill :
    ∃ s s', (Event.enter 0 killFrame).happen.run userProcess = .ok () s ∧
      (each Event.happen (.signal .ownKill ::
        ([.finish 0 true 0, .enter 0 sigreturnFrame] ++ [.sigreturn]))).run s = .ok () s' ∧
      s'.live = some { killFrame with eax := 0 } := by
  have henter : (each Event.happen [.enter 0 killFrame]).run userProcess =
      .ok () (Frames.store userProcess killFrame (.stack 0)) := rfl
  obtain ⟨s', hrun, hiff⟩ := handler_transparent_iff wellFormed_userProcess henter rfl
    (.finish 0 true 0 (.enter 0 sigreturnFrame .nil)) .ownKill
  exact ⟨_, s', rfl, hrun, hiff.mpr (.inl rfl)⟩

/-- A process waits for a child, which dies. `waitpid` returns 3, the handler for `SIGCHLD` is run,
and the process finds 0. -/
theorem waitpid_result_lost : ∃ s s', (Event.enter 0 waitFrame).happen.run userProcess = .ok () s ∧
      (each Event.happen (.signal .childDied ::
        ([.finish 0 true 3, .enter 0 sigreturnFrame] ++ [.sigreturn]))).run s = .ok () s' ∧
      s'.live = some { waitFrame with eax := 0 } ∧
      expected .childDied [.finish 0 true 3, .enter 0 sigreturnFrame] waitFrame =
        { waitFrame with eax := 3 } := by
  have hbody : Balanced [.finish 0 true 3, .enter 0 sigreturnFrame] :=
    .finish 0 true 3 (.enter 0 sigreturnFrame .nil)
  have hwf : WellFormed (Frames.store userProcess waitFrame (.stack 0)) :=
    @WellFormed.happen _ _ (.enter 0 waitFrame) wellFormed_userProcess rfl
  obtain ⟨s', hrun, -, -, hlive⟩ := run_handler hbody.tidy hwf rfl .childDied
  exact ⟨_, s', rfl, hrun, hlive, rfl⟩

end

/-! ## Stack pointers -/

/-- What the kernel as a whole has of the frames. -/
def Frames.toSignals (s : Frames) : Signals.ProcessSignals where
  archContext := some ⟨s.live.map Registers.esp⟩
  sigContext := s.sigContext.map fun c =>
    ⟨⟨(s.load c.userRegs).map Registers.esp⟩, c.returningProcess⟩

/-- The frames are those of a process of the kernel. -/
def Frames.Shown (s : Frames) (k : Signals.Kernel) : Prop := k.signals s.pid = s.toSignals

section

variable {s : Frames} {frame copy : Registers} {it : AddressSpaces.Iteration}
  {k k' : Signals.Kernel} {pid : Nat}

@[simp] theorem pid_store {ptr : FramePtr} : (s.store frame ptr).pid = s.pid := by
  cases ptr <;> rfl

@[simp] theorem pid_delete {ptr : FramePtr} : (s.delete ptr).pid = s.pid := by
  cases ptr <;> rfl

theorem pid_interrupted (returningPid : Nat) : (s.interrupted returningPid frame).pid = s.pid :=
  pid_store

theorem pid_resumed {top : SigContext} {rest : List SigContext} :
    (s.resumed top rest copy).pid = s.pid := by
  show ((s.delete top.userRegs).store _ s.userRegs).pid = s.pid
  simp

theorem signals_onSpaces {α : Type} {x : AddressSpaces.SystemAction α} {a : α}
    (hrun : (Signals.onSpaces x).run k = .ok a k') : k'.signals = k.signals := by
  obtain ⟨spaces, -, rfl⟩ := run_zoom_eq_ok.mp hrun
  rfl

theorem signals_each_push {sizes : List Nat} {esp : Nat}
    (hesp : (k.signals pid).archContext = some ⟨some esp⟩)
    (hrun : (each (Signals.pushOntoStack pid) sizes).run k = .ok () k') :
    k'.signals pid = { k.signals pid with
      archContext := some ⟨some (sizes.foldl wsub esp)⟩ } := by
  induction sizes generalizing k esp with
  | nil =>
    cases hrun
    rw [List.foldl_nil, ← hesp]
  | cons size sizes ih =>
    obtain ⟨_, r, hpush, hrun⟩ := run_bind_eq_ok.mp hrun
    obtain ⟨-, rfl⟩ := (Signals.run_pushOntoStack_eq_ok hesp).mp hpush
    rw [ih (by rw [Signals.Kernel.signals_setSignals]) hrun, Signals.Kernel.signals_setSignals]
    rfl

/-- A handler is entered: the frames and the kernel as a whole agree about stack pointers. -/
theorem toSignals_interrupted (h : WellFormed s) (hlive : s.live = some frame) {returningPid : Nat}
    (hk : k.signals pid = s.toSignals)
    (hrun : (Signals.executeSighandler it pid returningPid).run k = .ok () k') :
    k'.signals pid = (s.interrupted returningPid frame).toSignals := by
  obtain ⟨esp, r, r', hesp, hswitch, hpush, hback⟩ := Signals.run_executeSighandler_eq_ok.mp hrun
  obtain rfl : frame.esp = esp := by
    rw [hk] at hesp
    unfold Frames.toSignals at hesp
    rw [hlive] at hesp
    simpa using hesp
  have hsaved : r.signals pid = { k.signals pid with
      sigContext := ⟨⟨some frame.esp⟩, returningPid⟩ :: (k.signals pid).sigContext } := by
    rw [signals_onSpaces hswitch, Signals.Kernel.saved, Signals.Kernel.signals_setSignals]
  have hesp' : (r.signals pid).archContext = some ⟨some frame.esp⟩ := by
    rw [hsaved]
    exact hesp
  obtain ⟨-, hcontext, hcopy, hframes⟩ := h.interrupted frame returningPid
  have hlive' : (s.interrupted returningPid frame).live = some (handlerFrame frame) :=
    live_store _ _
  rw [signals_onSpaces hback, signals_each_push hesp' hpush, hsaved, hk]
  unfold Frames.toSignals
  rw [hlive', hcontext, List.map_cons, hcopy]
  simp only [Signals.ProcessSignals.mk.injEq, List.cons.injEq]
  refine ⟨rfl, rfl, List.map_congr_left fun c hc => ?_⟩
  rw [hframes c hc]

/-- A handler is left. -/
theorem toSignals_resumed (h : WellFormed s) {top : SigContext} {rest : List SigContext}
    (hcontext : s.sigContext = top :: rest) (hcopy : s.load top.userRegs = some copy)
    (hk : k.signals k.spaces.current = s.toSignals)
    (hrun : (Signals.exitSignal it).run k = .ok () k') :
    k'.signals k.spaces.current = (s.resumed top rest copy).toSignals := by
  obtain ⟨top', rest', esp, esp', hcontext', hesp, -, hswitch⟩ :=
    Signals.run_exitSignal_eq_ok.mp hrun
  have hsignals : k'.signals = (k.restored k.spaces.current esp rest').signals := by
    split at hswitch
    · exact signals_onSpaces hswitch
    · cases hswitch
      rfl
  obtain ⟨-, hlive, hframes⟩ := @WellFormed.resumed s copy top rest h hcontext
  rw [hk] at hcontext'
  unfold Frames.toSignals at hcontext'
  rw [hcontext, List.map_cons, hcopy] at hcontext'
  obtain ⟨rfl, rfl⟩ := List.cons.inj hcontext'
  obtain rfl : copy.esp = esp := by simpa using hesp
  rw [hsignals, Signals.Kernel.restored, Signals.Kernel.signals_setSignals]
  unfold Frames.toSignals
  rw [hlive]
  simp only [Signals.ProcessSignals.mk.injEq]
  refine ⟨rfl, List.map_congr_left fun c hc => ?_⟩
  rw [hframes c hc]

/-- `exit_signal` makes the process current that the frames say. -/
theorem current_of_exitSignal {top : SigContext} {rest : List SigContext}
    (hcontext : s.sigContext = top :: rest) (hk : s.Shown k) (hcurrent : k.spaces.current = s.pid)
    (hrun : (Signals.exitSignal it).run k = .ok () k') :
    k'.spaces.current = if s.pid ≠ top.returningProcess then top.returningProcess else s.pid := by
  obtain ⟨top', rest', esp, esp', hcontext', -, -, hswitch⟩ := Signals.run_exitSignal_eq_ok.mp hrun
  rw [hcurrent, hk, Frames.toSignals, hcontext, List.map_cons] at hcontext'
  obtain ⟨rfl, -⟩ := List.cons.inj hcontext'
  rw [hcurrent] at hswitch
  split at hswitch
  case isTrue hne =>
    obtain ⟨t, hspaces, rfl⟩ := run_zoom_eq_ok.mp hswitch
    obtain ⟨-, _, _, paging, -, -, -, rfl⟩ := AddressSpaces.run_taskSwitch_eq_ok.mp hspaces
    rw [if_pos hne]
  case isFalse heq =>
    cases hswitch
    rw [if_neg heq]
    exact hcurrent

/-- What the kernel as a whole does when a handler of the process is entered or left, the frames do
as well. The two agree afterwards, and the kernel has switched to the process that `exit_signal`
returns. -/
theorem signals_simulated (h : WellFormed s) (hk : s.Shown k) :
    (∀ returningPid k', (Signals.executeSighandler it s.pid returningPid).run k = .ok () k' →
      ∃ s', (executeSighandler returningPid).run s = .ok () s' ∧ WellFormed s' ∧
        s'.pid = s.pid ∧ s'.Shown k') ∧
    ∀ k', k.spaces.current = s.pid → (Signals.exitSignal it).run k = .ok () k' →
      ∃ next s', exitSignal.run s = .ok next s' ∧ WellFormed s' ∧
        s'.pid = s.pid ∧ s'.Shown k' ∧ k'.spaces.current = next.getD s.pid := by
  constructor
  · intro returningPid k' hrun
    obtain ⟨frame, hlive⟩ := Option.ne_none_iff_exists'.mp h.live
    refine ⟨_, run_executeSighandler hlive returningPid, (h.interrupted frame returningPid).1,
      pid_interrupted returningPid, ?_⟩
    unfold Frames.Shown
    rw [pid_interrupted]
    exact toSignals_interrupted h hlive hk hrun
  · intro k' hcurrent hrun
    cases hcontext : s.sigContext with
    | nil =>
      obtain ⟨top, rest, -, -, hcons, -⟩ := Signals.run_exitSignal_eq_ok.mp hrun
      rw [hcurrent, hk, Frames.toSignals, hcontext] at hcons
      cases hcons
    | cons top rest =>
      have htop := (h.saved top (hcontext ▸ List.mem_cons_self)).2
      obtain ⟨copy, hcopy⟩ := Option.ne_none_iff_exists'.mp htop
      refine ⟨_, _, run_exitSignal hcontext hcopy, (h.resumed hcontext).1, pid_resumed, ?_, ?_⟩
      · unfold Frames.Shown
        rw [pid_resumed, ← hcurrent]
        exact toSignals_resumed h hcontext hcopy (hcurrent ▸ hk) hrun
      · rw [current_of_exitSignal hcontext hk hcurrent hrun]
        split
        case isTrue => rfl
        case isFalse => rfl

/-- The first process leaves a handler. -/
theorem signals_simulated_exit : ∃ k k' s',
    (Signals.exitSignal AddressSpaces.inAddressOrder).run k = .ok () k' ∧
      WellFormed s' ∧ s'.pid = 0 ∧ s'.Shown k' ∧ k'.spaces.current = 0 := by
  let s : Frames := Frames.interrupted { userProcess with pid := 0 } 0 {}
  let k : Signals.Kernel :=
    ⟨AddressSpaces.boot AddressSpaces.bootMachine ⟨0, fun _ => {}⟩, fun _ => s.toSignals⟩
  have hfirst : WellFormed { userProcess with pid := 0 } :=
    ⟨wellFormed_userProcess.live, wellFormed_userProcess.fresh, wellFormed_userProcess.saved,
      wellFormed_userProcess.distinct, wellFormed_userProcess.apart⟩
  have hwf : WellFormed s := (hfirst.interrupted {} 0).1
  have hk : s.Shown k := rfl
  have hrun : (Signals.exitSignal AddressSpaces.inAddressOrder).run k = .ok () _ := rfl
  obtain ⟨next, s', hexit, hwf', hpid, hk', hcurrent⟩ := (signals_simulated hwf hk).2 _ rfl hrun
  cases hexit
  exact ⟨k, _, _, hrun, hwf', hpid, hk', hcurrent⟩

end

end LudOS.Tasking.SignalFrames
