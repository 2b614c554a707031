import LudOS.Tasking.SpaceEdits

/-!
# Handlers of page faults

The handlers of `mem/page_fault_handler.cpp`. They are known by the page, for all processes
together, while every process has an address space of its own. A process attaches a handler for each
page of its user callbacks, `clone` copies the list of these pages, and the destructor detaches the
handlers of all pages on the list. `HandlerStep.performs` says that to address spaces the calls do
what they do without handlers.

`handlers_private_iff` says under which condition on the calls nobody gets in the way of another
process. `callback_page_taken` are two processes that are not related and have the same page.
-/

namespace LudOS.Tasking.FaultHandlers

open Lib Mem PageMapping
open AddressSpaces (System SystemAction Process Iteration)

/-! ## State -/

/-- Why a function stops: at an assertion of `attach_fault_handler` or `detach_fault_handler`, or
for another reason. -/
inductive HandlerFault where
  | handler
  | other (fault : Fault)
  deriving DecidableEq, Repr

/-- `handlers` has the process whose handler is attached to a page. -/
structure HandlerSystem where
  spaces : System
  handlers : Nat → Option Nat

/-- A function of the kernel. -/
abbrev HandlerAction := EStateM HandlerFault HandlerSystem

/-- `Memory::page`. -/
def pageOf (addr : Nat) : Nat := addr / pageSize * pageSize

/-- The pages of user callbacks of a process. -/
def callbackPages (s : System) (pid : Nat) : Option (List Nat) :=
  (s.byPid pid).map fun p => p.userCallbacks.pages

namespace HandlerSystem

/-- The pages of user callbacks of a process. -/
def pagesOf (s : HandlerSystem) (pid : Nat) : Option (List Nat) := callbackPages s.spaces pid

/-- The process whose handler runs at a fault at the address. -/
def handlerOf (s : HandlerSystem) (address : Nat) : Option Nat := s.handlers (pageOf address)

end HandlerSystem

/-- A function on address spaces. -/
def onSpaces {α : Type} (x : SystemAction α) : HandlerAction α := fun s =>
  match x.run s.spaces with
  | .ok a spaces => .ok a { s with spaces }
  | .error fault spaces => .error (.other fault) { s with spaces }

/-! ## Attaching and detaching -/

/-- `attach_fault_handler` of a handler of the given process. -/
def attachFaultHandler (vAddr pid : Nat) : HandlerAction Nat := do
  let s ← get
  let page := pageOf vAddr
  check .handler (s.handlers page = none)
  set { s with handlers := Function.update s.handlers page (some pid) }
  pure page

/-- `detach_fault_handler`. -/
def detachFaultHandler (hdl : Nat) : HandlerAction Unit := do
  let s ← get
  check .handler (s.handlers hdl ≠ none)
  set { s with handlers := Function.update s.handlers hdl none }

/-! ## Faults -/

/-- `PageFault::level`. -/
inductive FaultLevel where
  | kernel
  | user
  deriving DecidableEq, Repr

/-- `PageFault::type`. -/
inductive FaultType where
  | read
  | write
  | execute
  deriving DecidableEq, Repr

/-- `PageFault`, as far as handlers look at it. -/
structure PageFault where
  address : Nat
  level : FaultLevel
  type : FaultType
  deriving DecidableEq, Repr

/-- What happens at a fault: a callback of a process is called, the current process gets a
`SIGSEGV`, or the kernel stops. -/
inductive Reaction where
  | callback (pid : Nat) (entry : CallbackEntry)
  | signal
  | panic
  deriving DecidableEq, Repr

/-- `Process::user_callback_fault_handler`: the callback that it calls, if it handles the fault. -/
def userCallbackFaultHandler (p : Process) (fault : PageFault) : Option CallbackEntry :=
  if fault.level ≠ .user then none
  else if fault.type ≠ .read ∧ fault.type ≠ .execute then none
  else p.userCallbacks.list[fault.address]?

/-- `page_fault_entry`. -/
def pageFaultEntry (s : HandlerSystem) (fault : PageFault) : Reaction :=
  let handled := do
    let pid ← s.handlerOf fault.address
    let p ← s.spaces.byPid pid
    let entry ← userCallbackFaultHandler p fault
    pure (Reaction.callback pid entry)
  match handled, fault.level with
  | some reaction, _ => reaction
  | none, .kernel => .panic
  | none, .user => .signal

/-! ## Calls -/

/-- Change the callbacks of a process. -/
def updateCallbacks (pid : Nat) (f : UserCallbacks → UserCallbacks) : SystemAction Unit := do
  let p ← AddressSpaces.process pid
  modify fun s => s.setProcess pid { p with userCallbacks := f p.userCallbacks }

/-- `Process::allocate_user_callback_page`. -/
def allocateUserCallbackPage (pid : Nat) : HandlerAction Unit := do
  let virtPage ← onSpaces (AddressSpaces.allocateVirtualPage pid 1)
  onSpaces (AddressSpaces.mapPage pid virtPage 0 sentinelFlags false)
  onSpaces (updateCallbacks pid fun callbacks => { callbacks with
    freeEntries := callbacks.freeEntries ++ (List.range pageSize).map (virtPage + ·) })
  let _ ← attachFaultHandler virtPage pid
  onSpaces (updateCallbacks pid fun callbacks => { callbacks with
    pages := callbacks.pages ++ [virtPage] })

/-- `Process::create_user_callback_impl`. -/
def createUserCallbackImpl (pid callback : Nat) (argSizes : List Nat) : HandlerAction Nat := do
  let p ← onSpaces (AddressSpaces.process pid)
  (if p.userCallbacks.freeEntries = [] then allocateUserCallbackPage pid else pure ())
  let p ← onSpaces (AddressSpaces.process pid)
  match p.userCallbacks.freeEntries with
  | [] => throw (.other .assertion)
  | address :: freeEntries => do
    onSpaces (updateCallbacks pid fun callbacks => { callbacks with
      freeEntries
      list := callbacks.list.insert address ⟨argSizes, callback⟩ })
    pure address

section

variable (it : Iteration)

/-- `Process::release_zombie` with the destructor. The list of pages is never shared, since `clone`
copies it. -/
def releaseZombie (pid : Nat) : HandlerAction Unit := do
  let s ← get
  check (.other .assertion) (s.spaces.current ≠ pid)
  let p ← onSpaces (AddressSpaces.process pid)
  each detachFaultHandler p.userCallbacks.pages
  onSpaces (AddressSpaces.releaseZombie it pid)

/-- The calls that attach and detach handlers, and copy the list of pages. -/
inductive HandlerCall where
  | createUserCallback (pid callback : Nat) (argSizes : List Nat)
  | clone (pid flags : Nat)
  | releaseZombie (pid : Nat)

/-- Make the call. -/
def HandlerCall.perform : HandlerCall → HandlerAction Unit
  | .createUserCallback pid callback argSizes => do
    let _ ← createUserCallbackImpl pid callback argSizes
  | .clone pid flags => onSpaces (do let _ ← AddressSpaces.clone it pid flags)
  | .releaseZombie pid => FaultHandlers.releaseZombie it pid

end

/-- The call returns. -/
def HandlerStep (s : HandlerSystem) (c : HandlerCall) (s' : HandlerSystem) : Prop :=
  ∃ it, (c.perform it).run s = .ok () s'

/-! ## Private handlers -/

/-- Whichever process is the current one, the handler that runs at a fault in one of its callback
pages is its own. -/
def Serves (s : HandlerSystem) : Prop :=
  ∀ pid pages, s.pagesOf pid = some pages → ∀ address, pageOf address ∈ pages →
    s.handlerOf address = some pid

/-- Every callback page has the handler of its process, and there are no other handlers. -/
structure Private (s : HandlerSystem) : Prop where
  serves : ∀ pid pages, s.pagesOf pid = some pages → ∀ page ∈ pages, s.handlers page = some pid
  aligned : ∀ pid pages, s.pagesOf pid = some pages → ∀ page ∈ pages, pageOf page = page
  nodup : ∀ pid pages, s.pagesOf pid = some pages → pages.Nodup
  known : ∀ page pid, s.handlers page = some pid →
    ∃ pages, s.pagesOf pid = some pages ∧ page ∈ pages

/-- The call does not lead to a page that two processes have: a new page is not a callback page
anywhere, and only a process without callback pages is cloned. -/
def HandlerCall.Alone (s : HandlerSystem) : HandlerCall → Prop
  | .createUserCallback pid _ _ => ∀ p, s.spaces.byPid pid = some p →
      p.userCallbacks.freeEntries = [] →
      ∀ virtPage, findPages (s.spaces.tables p.mappings).contains 1 = some virtPage →
        ∀ q pages, s.pagesOf q = some pages → virtPage ∉ pages
  | .clone pid _ => ∀ pages, s.pagesOf pid = some pages → pages = []
  | .releaseZombie _ => True

/-- No assertion about handlers fails in the call, and if it returns, all callback pages have the
handlers of their processes. -/
def HandlerCall.Respects (it : Iteration) (s : HandlerSystem) (c : HandlerCall) : Prop :=
  (∀ s', (c.perform it).run s ≠ .error .handler s') ∧
    ∀ s', (c.perform it).run s = .ok () s' → Serves s'

/-! ## Parts -/

section

variable {s s' : System} {pid t v : Nat} {it : Iteration} {u : Unit}

theorem callbackPages_eq_some {pages : List Nat} : callbackPages s pid = some pages ↔
    ∃ p, s.byPid pid = some p ∧ p.userCallbacks.pages = pages := by
  unfold callbackPages
  rw [Option.map_eq_some_iff]

theorem callbackPages_congr (h : s'.processes = s.processes) (q : Nat) :
    callbackPages s' q = callbackPages s q := by
  unfold callbackPages System.byPid
  rw [h]

theorem callbackPages_setProcess {p : Process} (hp : s.byPid pid = some p) (p' : Process)
    (q : Nat) : callbackPages (s.setProcess pid p') q =
      if q = pid then some p'.userCallbacks.pages else callbackPages s q := by
  unfold callbackPages
  rw [AddressSpaces.byPid_setProcess hp]
  split
  · rfl
  · rfl

theorem run_updateCallbacks_eq_ok {f : UserCallbacks → UserCallbacks} :
    (updateCallbacks pid f).run s = .ok u s' ↔ ∃ p, s.byPid pid = some p ∧
      s' = s.setProcess pid { p with userCallbacks := f p.userCallbacks } := by
  constructor
  · intro hrun
    obtain ⟨p, hp, hrun⟩ := AddressSpaces.run_process_bind_eq_ok.mp hrun
    cases hrun
    exact ⟨p, hp, rfl⟩
  · intro h
    obtain ⟨p, hp, rfl⟩ := h
    exact AddressSpaces.run_process_bind hp

/-! ### The list of processes -/

/-- The list of processes is the given one. -/
def HasProcesses (processes : List (Option Process)) (s : System) : Prop := s.processes = processes

section

variable {processes : List (Option Process)}

theorem keeps_onMachine (x : PageMapping.Action α) :
    Keeps (HasProcesses processes) (AddressSpaces.onMachine x) := by
  grind [Keeps, HasProcesses, endState, AddressSpaces.onMachine, EStateM.run]

theorem keeps_onPaging (x : EStateM Fault PageTables α) :
    Keeps (HasProcesses processes) (AddressSpaces.onPaging x) := by
  grind [Keeps, HasProcesses, endState, AddressSpaces.onPaging, EStateM.run]

theorem keeps_process (pid : Nat) :
    Keeps (HasProcesses processes) (AddressSpaces.process pid) := by
  refine keeps_get_bind fun s _ => ?_
  split
  · exact keeps_throw _
  · exact keeps_pure _

theorem keeps_allocatePhysicalPage :
    Keeps (HasProcesses processes) AddressSpaces.allocatePhysicalPage :=
  keeps_seq (keeps_onMachine _) fun _ => keeps_seq (keeps_modify fun _ h => h) fun _ => keeps_pure _

theorem keeps_mapPage (pid v paddr flags : Nat) (owned : Bool) :
    Keeps (HasProcesses processes) (AddressSpaces.mapPage pid v paddr flags owned) :=
  keeps_get_bind fun _ _ => keeps_seq (keeps_process _) fun _ =>
    keeps_seq (keeps_process _) fun _ =>
    keeps_seq (keeps_ite (keeps_onPaging _) (keeps_pure _)) fun _ =>
      keeps_get_bind fun _ h => keeps_seq (keeps_check _ _) fun _ => keeps_set h

theorem keeps_mapNewPage (pid v : Nat) :
    Keeps (HasProcesses processes) (AddressSpaces.mapNewPage pid v) :=
  keeps_seq keeps_allocatePhysicalPage fun _ => keeps_seq (keeps_mapPage _ _ _ _ _) fun _ =>
    keeps_pure _

theorem keeps_copyPage (target : Nat) (pair : Nat × MemoryMapping) :
    Keeps (HasProcesses processes) (AddressSpaces.copyPage target pair) :=
  keeps_ite (keeps_pure _)
    (keeps_seq (keeps_process _) fun _ => keeps_seq (keeps_modify fun _ h => h)
    fun _ => keeps_seq (keeps_check _ _) fun _ => keeps_seq keeps_allocatePhysicalPage fun _ =>
      keeps_seq (keeps_modify fun _ h => h) fun _ => keeps_get_bind fun _ _ => keeps_onMachine _)

end

/-- `init_tls` leaves callbacks alone. -/
theorem run_initTls_callbackPages (hrun : (AddressSpaces.initTls pid).run s = .ok u s') (q : Nat) :
    callbackPages s' q = callbackPages s q := by
  obtain ⟨addr, r, hfind, hrun⟩ := run_bind_eq_ok.mp hrun
  obtain ⟨t, htable⟩ := AddressSpaces.exists_tableOf hfind
  obtain ⟨-, rfl⟩ := (AddressSpaces.run_allocateVirtualPage_eq_ok htable).mp hfind
  obtain ⟨_, r, hpages, hrun⟩ := run_bind_eq_ok.mp hrun
  obtain ⟨page, r', hnew, hrun⟩ := run_bind_eq_ok.mp hrun
  obtain ⟨_, r'', hwrite, hrun⟩ := run_bind_eq_ok.mp hrun
  obtain ⟨m, -, rfl⟩ := AddressSpaces.run_onMachine_eq_ok.mp hwrite
  obtain ⟨p, hp, hrun⟩ := AddressSpaces.run_process_bind_eq_ok.mp hrun
  cases hrun
  have hsame : callbackPages { r' with machine := m } q = callbackPages s q :=
    callbackPages_congr ((keeps_mapNewPage _ _).of_ok hnew ((keeps_loop (fun _ =>
      keeps_seq (keeps_mapNewPage _ _) fun _ => keeps_pure _) _ _).of_ok hpages rfl)) q
  rw [callbackPages_setProcess hp, ← hsame]
  split
  case isTrue heq =>
    subst heq
    exact (callbackPages_eq_some.mpr ⟨p, hp, rfl⟩).symm
  case isFalse => rfl

/-- `clone` copies the list of callback pages. -/
theorem run_clone_callbackPages {flags child : Nat}
    (hrun : (AddressSpaces.clone it pid flags).run s = .ok child s') :
    s.byPid child = none ∧ ∃ pages, callbackPages s pid = some pages ∧
      ∀ q, callbackPages s' q = if q = child then some pages else callbackPages s q := by
  obtain ⟨rfl, p, machine, stack, r, hp, -, htables, htls⟩ := AddressSpaces.run_clone_eq_ok hrun
  refine ⟨AddressSpaces.byPid_firstFree s, _, callbackPages_eq_some.mpr ⟨p, hp, rfl⟩, fun q => ?_⟩
  have hnewborn : ∀ t, callbackPages (s.newborn machine stack p t) q =
      if q = firstFree s.processes then some p.userCallbacks.pages else callbackPages s q := by
    intro t
    have hchild := AddressSpaces.byPid_entered s machine stack (firstFree s.processes)
    rw [if_pos rfl] at hchild
    unfold System.newborn
    rw [callbackPages_setProcess hchild]
    split
    case isTrue => rfl
    case isFalse hne =>
      unfold callbackPages
      rw [AddressSpaces.byPid_entered, if_neg hne]
  rw [run_initTls_callbackPages htls]
  rcases htables with ⟨-, rfl⟩ | ⟨-, hcopy⟩
  · exact hnewborn p.mappings
  · have hsame := (keeps_each fun _ _ => keeps_copyPage _ _).of_ok hcopy rfl
    rw [callbackPages_congr hsame]
    exact hnewborn s.nextTable

/-- `release_zombie` takes the process away. -/
theorem run_releaseZombie_callbackPages
    (hrun : (AddressSpaces.releaseZombie it pid).run s = .ok () s') (q : Nat) :
    callbackPages s' q = if q = pid then none else callbackPages s q := by
  obtain ⟨t, r, r', htable, -, hrelease, hfrees, rfl⟩ := AddressSpaces.run_releaseZombie_eq_ok hrun
  obtain ⟨allocator, rfl⟩ := hfrees.rest
  have hprocesses : r.processes = s.processes := by
    rcases AddressSpaces.run_releaseMappings_cases htable hrelease with
      ⟨-, rfl⟩ | ⟨-, r', hback, rfl⟩
    · rfl
    · obtain ⟨allocator, rfl⟩ := hback.rest
      rfl
  unfold callbackPages System.byPid
  rw [slot_set_none, hprocesses]
  split
  · rfl
  · rfl

end

section

variable {s s' : HandlerSystem} {pid page v : Nat} {it : Iteration} {α : Type} {x : SystemAction α}
  {p : Process}

theorem run_onSpaces_eq_ok {a : α} : (onSpaces x).run s = .ok a s' ↔
      ∃ spaces, x.run s.spaces = .ok a spaces ∧ s' = { s with spaces } := by
  show onSpaces x s = .ok a s' ↔ _
  unfold onSpaces
  cases x.run s.spaces with
  | ok b spaces => simp [eq_comm]
  | error e spaces => simp

/-- A function on address spaces knows nothing about handlers. -/
theorem run_onSpaces_ne (x : SystemAction α) (s s' : HandlerSystem) :
    (onSpaces x).run s ≠ .error .handler s' := by
  show onSpaces x s ≠ .error .handler s'
  unfold onSpaces
  cases x.run s.spaces with
  | ok b spaces => simp
  | error e spaces => simp

/-- A fault about handlers comes from behind a function on address spaces. -/
theorem run_onSpaces_bind_error {β : Type} {f : α → HandlerAction β}
    (hrun : (onSpaces x >>= f).run s = .error .handler s') :
    ∃ a spaces, x.run s.spaces = .ok a spaces ∧
      (f a).run { s with spaces } = .error .handler s' := by
  rcases run_bind_eq_error.mp hrun with hfirst | ⟨a, r, hfirst, hrest⟩
  · exact absurd hfirst (run_onSpaces_ne x s s')
  · obtain ⟨spaces, hx, rfl⟩ := run_onSpaces_eq_ok.mp hfirst
    exact ⟨a, spaces, hx, hrest⟩

/-- A function on address spaces at the start of a sequence that returns. -/
theorem run_onSpaces_bind_ok {β : Type} {f : α → HandlerAction β} {b : β}
    (hrun : (onSpaces x >>= f).run s = .ok b s') :
    ∃ a spaces, x.run s.spaces = .ok a spaces ∧ (f a).run { s with spaces } = .ok b s' := by
  obtain ⟨a, r, hfirst, hrest⟩ := run_bind_eq_ok.mp hrun
  obtain ⟨spaces, hx, rfl⟩ := run_onSpaces_eq_ok.mp hfirst
  exact ⟨a, spaces, hx, hrest⟩

theorem run_attachFaultHandler (h : s.handlers (pageOf v) = none) :
    (attachFaultHandler v pid).run s = .ok (pageOf v)
      { s with handlers := Function.update s.handlers (pageOf v) (some pid) } := by
  unfold attachFaultHandler
  rw [run_get_bind, run_check_bind h]
  rfl

theorem run_attachFaultHandler_taken (h : s.handlers (pageOf v) ≠ none) :
    (attachFaultHandler v pid).run s = .error .handler s := by
  unfold attachFaultHandler
  rw [run_get_bind, run_bind_error (run_check_neg h s)]

theorem run_detachFaultHandler (h : s.handlers page ≠ none) : (detachFaultHandler page).run s =
      .ok () { s with handlers := Function.update s.handlers page none } := by
  unfold detachFaultHandler
  rw [run_get_bind, run_check_bind h]
  rfl

/-- The handlers of a list of pages are detached one after the other. -/
theorem run_each_detachFaultHandler {pages : List Nat} (hnodup : pages.Nodup)
    (hthere : ∀ page ∈ pages, s.handlers page ≠ none) :
    ∃ handlers, (each detachFaultHandler pages).run s = .ok () { s with handlers } ∧
      ∀ page, handlers page = if page ∈ pages then none else s.handlers page := by
  induction pages generalizing s with
  | nil => exact ⟨s.handlers, rfl, fun page => by simp⟩
  | cons first pages ih =>
    obtain ⟨hnew, hnodup'⟩ := List.nodup_cons.mp hnodup
    have hfirst := run_detachFaultHandler (hthere first List.mem_cons_self)
    obtain ⟨handlers, hrest, hhandlers⟩ := @ih
      { s with handlers := Function.update s.handlers first none } hnodup' (by
        intro page hmem
        have hne : page ≠ first := fun heq => hnew (heq ▸ hmem)
        show Function.update s.handlers first none page ≠ none
        rw [Function.update_of_ne hne]
        exact hthere page (List.mem_cons_of_mem first hmem))
    refine ⟨handlers, ?_, fun page => ?_⟩
    · rw [each, run_bind_ok hfirst, hrest]
    · rw [hhandlers]
      by_cases heq : page = first
      · simp [heq]
      · simp [heq]

/-! ## Calls that return -/

theorem pageOf_userPage (h : AddressSpaces.UserPage v) : pageOf v = v := by
  obtain ⟨hmod, -⟩ := h
  exact Nat.div_mul_cancel (Nat.dvd_of_mod_eq_zero hmod)

theorem pageOf_findPages {mapped : Nat → Bool} (h : findPages mapped 1 = some v) :
    pageOf v = v := by
  refine pageOf_userPage ?_
  simpa using AddressSpaces.findPages_userPage h Nat.one_pos

section

variable (hp : s.spaces.byPid pid = some p)

include hp

/-- A new callback page is the first free page of the process, and nobody has a handler there. -/
theorem run_allocateUserCallbackPage_eq_ok {u : Unit}
    (hrun : (allocateUserCallbackPage pid).run s = .ok u s') :
    ∃ virtPage, findPages (s.spaces.tables p.mappings).contains 1 = some virtPage ∧
      s.handlers virtPage = none ∧ s'.handlers = Function.update s.handlers virtPage (some pid) ∧
      s'.pagesOf pid = some (p.userCallbacks.pages ++ [virtPage]) ∧
      (∀ q, q ≠ pid → s'.spaces.byPid q = s.spaces.byPid q) ∧
      (AddressSpaces.allocateUserCallbackPage pid).run s.spaces = .ok () s'.spaces := by
  have htable := AddressSpaces.tableOf_eq_some.mpr ⟨p, hp, rfl⟩
  obtain ⟨virtPage, r, hfind, hrun⟩ := run_onSpaces_bind_ok hrun
  obtain ⟨hfind', rfl⟩ := (AddressSpaces.run_allocateVirtualPage_eq_ok htable).mp hfind
  obtain ⟨_, r, hmap, hrun⟩ := run_onSpaces_bind_ok hrun
  have hmapped : ∀ q, r.byPid q = s.spaces.byPid q := fun q => by
    unfold System.byPid
    rw [(keeps_mapPage _ _ _ _ _).of_ok hmap rfl]
  obtain ⟨_, r', hfree, hrun⟩ := run_onSpaces_bind_ok hrun
  obtain ⟨p', hp', rfl⟩ := run_updateCallbacks_eq_ok.mp hfree
  cases (hmapped pid).symm.trans hp' |>.symm.trans hp
  obtain ⟨_, r', hattach, hrun⟩ := run_bind_eq_ok.mp hrun
  have haligned := pageOf_findPages hfind'
  by_cases htaken : s.handlers virtPage = none
  · rw [run_attachFaultHandler (by rw [haligned]; exact htaken)] at hattach
    cases hattach
    obtain ⟨spaces, hpages, rfl⟩ := run_onSpaces_eq_ok.mp hrun
    obtain ⟨p'', hfilled, rfl⟩ := run_updateCallbacks_eq_ok.mp hpages
    cases ((AddressSpaces.byPid_setProcess hp' _ _).trans (if_pos rfl)).symm.trans hfilled
    refine ⟨virtPage, hfind', htaken, by rw [haligned], ?_, fun q hne => ?_, ?_⟩
    · unfold HandlerSystem.pagesOf
      rw [callbackPages_setProcess hfilled, if_pos rfl]
    · rw [AddressSpaces.byPid_setProcess hfilled, if_neg hne, AddressSpaces.byPid_setProcess hp',
        if_neg hne, hmapped]
    · unfold AddressSpaces.allocateUserCallbackPage
      rw [run_bind_ok hfind, run_bind_ok hmap, AddressSpaces.run_process_bind hp']
      exact congrArg (EStateM.Result.ok ()) (AddressSpaces.setProcess_setProcess _ _ _ _).symm
  · rw [run_attachFaultHandler_taken (by rw [haligned]; exact htaken)] at hattach
    cases hattach

/-- The assertion for a new callback page fails if somebody has a handler at the first free page. -/
theorem run_allocateUserCallbackPage_handler
    (hrun : (allocateUserCallbackPage pid).run s = .error .handler s') :
    ∃ virtPage, findPages (s.spaces.tables p.mappings).contains 1 = some virtPage ∧
      s.handlers virtPage ≠ none := by
  have htable := AddressSpaces.tableOf_eq_some.mpr ⟨p, hp, rfl⟩
  obtain ⟨virtPage, r, hfind, hrun⟩ := run_onSpaces_bind_error hrun
  obtain ⟨hfind', rfl⟩ := (AddressSpaces.run_allocateVirtualPage_eq_ok htable).mp hfind
  obtain ⟨_, r, hmap, hrun⟩ := run_onSpaces_bind_error hrun
  obtain ⟨_, r', hfree, hrun⟩ := run_onSpaces_bind_error hrun
  refine ⟨virtPage, hfind', fun hnone => ?_⟩
  rw [run_bind_ok (run_attachFaultHandler (by rw [pageOf_findPages hfind']; exact hnone))] at hrun
  exact run_onSpaces_ne _ _ _ hrun

/-- What a callback that is created does to handlers and pages: nothing, or there is a new page. -/
theorem run_createUserCallbackImpl_cases {callback address : Nat} {argSizes : List Nat}
    (hrun : (createUserCallbackImpl pid callback argSizes).run s = .ok address s') :
    (∀ q, q ≠ pid → s'.spaces.byPid q = s.spaces.byPid q) ∧
      ((p.userCallbacks.freeEntries ≠ [] ∧ s'.handlers = s.handlers ∧
          s'.pagesOf pid = some p.userCallbacks.pages) ∨
        (p.userCallbacks.freeEntries = [] ∧
          ∃ virtPage, findPages (s.spaces.tables p.mappings).contains 1 = some virtPage ∧
            s.handlers virtPage = none ∧
            s'.handlers = Function.update s.handlers virtPage (some pid) ∧
            s'.pagesOf pid = some (p.userCallbacks.pages ++ [virtPage]))) := by
  obtain ⟨p', r, hprocess, hrun⟩ := run_onSpaces_bind_ok hrun
  obtain ⟨hp', rfl⟩ := AddressSpaces.run_process_eq_ok.mp hprocess
  cases hp.symm.trans hp'
  obtain ⟨_, r, hpage, hrun⟩ := run_bind_eq_ok.mp hrun
  obtain ⟨p', r', hprocess', hrun⟩ := run_onSpaces_bind_ok hrun
  obtain ⟨-, rfl⟩ := AddressSpaces.run_process_eq_ok.mp hprocess'
  -- Taking an entry leaves the list of pages alone.
  obtain ⟨hhandlers, hpages, hothers⟩ : s'.handlers = r.handlers ∧
      s'.pagesOf pid = r.pagesOf pid ∧
      ∀ q, q ≠ pid → s'.spaces.byPid q = r.spaces.byPid q := by
    split at hrun
    · cases hrun
    · obtain ⟨_, r', hentry, hrun⟩ := run_onSpaces_bind_ok hrun
      obtain ⟨p'', hp'', rfl⟩ := run_updateCallbacks_eq_ok.mp hentry
      cases hrun
      refine ⟨rfl, ?_, fun q hne => ?_⟩
      · refine (callbackPages_setProcess hp'' _ pid).trans ((if_pos rfl).trans ?_)
        exact (callbackPages_eq_some.mpr ⟨p'', hp'', rfl⟩).symm
      · rw [AddressSpaces.byPid_setProcess hp'', if_neg hne]
  split at hpage
  case isTrue hempty =>
    obtain ⟨virtPage, hfind, hnone, hhandlers', hpages', hothers', -⟩ :=
      run_allocateUserCallbackPage_eq_ok hp hpage
    refine ⟨fun q hne => (hothers q hne).trans (hothers' q hne),
      .inr ⟨hempty, virtPage, hfind, hnone,
      hhandlers.trans hhandlers', hpages.trans hpages'⟩⟩
  case isFalse hne =>
    cases hpage
    exact ⟨hothers, .inl ⟨hne, hhandlers, hpages.trans (callbackPages_eq_some.mpr ⟨p, hp, rfl⟩)⟩⟩

/-- To address spaces the function does what it does without handlers. -/
theorem run_createUserCallbackImpl_spaces {callback address : Nat} {argSizes : List Nat}
    (hrun : (createUserCallbackImpl pid callback argSizes).run s = .ok address s') :
    (AddressSpaces.createUserCallbackImpl pid callback argSizes).run s.spaces =
      .ok address s'.spaces := by
  obtain ⟨p', r, hprocess, hrun⟩ := run_onSpaces_bind_ok hrun
  obtain ⟨hp', rfl⟩ := AddressSpaces.run_process_eq_ok.mp hprocess
  cases hp.symm.trans hp'
  obtain ⟨⟨⟩, r, hpage, hrun⟩ := run_bind_eq_ok.mp hrun
  have hpage' : (if p.userCallbacks.freeEntries = [] then AddressSpaces.allocateUserCallbackPage pid
      else pure ()).run s.spaces = .ok () r.spaces := by
    split at hpage
    case isTrue hempty =>
      obtain ⟨-, -, -, -, -, -, hspaces⟩ := run_allocateUserCallbackPage_eq_ok hp hpage
      rw [if_pos hempty, hspaces]
    case isFalse hne =>
      cases hpage
      rw [if_neg hne]
      rfl
  obtain ⟨q, r', hprocess', hrun⟩ := run_onSpaces_bind_ok hrun
  obtain ⟨hq, rfl⟩ := AddressSpaces.run_process_eq_ok.mp hprocess'
  unfold AddressSpaces.createUserCallbackImpl
  rw [AddressSpaces.run_process_bind hp, run_bind_ok hpage', AddressSpaces.run_process_bind hq]
  cases hentries : q.userCallbacks.freeEntries with
  | nil =>
    rw [hentries] at hrun
    cases hrun
  | cons address' freeEntries =>
    rw [hentries] at hrun
    obtain ⟨_, r', hentry, hrun⟩ := run_onSpaces_bind_ok hrun
    obtain ⟨q', hq', rfl⟩ := run_updateCallbacks_eq_ok.mp hentry
    cases hq.symm.trans hq'
    cases hrun
    rfl

end

theorem run_createUserCallbackImpl_handler {callback : Nat} {argSizes : List Nat}
    (hrun : (createUserCallbackImpl pid callback argSizes).run s = .error .handler s') :
    ∃ p, s.spaces.byPid pid = some p ∧ p.userCallbacks.freeEntries = [] ∧
      ∃ virtPage, findPages (s.spaces.tables p.mappings).contains 1 = some virtPage ∧
        s.handlers virtPage ≠ none := by
  obtain ⟨p, r, hprocess, hrun⟩ := run_onSpaces_bind_error hrun
  obtain ⟨hp, rfl⟩ := AddressSpaces.run_process_eq_ok.mp hprocess
  rcases run_bind_eq_error.mp hrun with hpage | ⟨_, r, -, hrun⟩
  · split at hpage
    case isTrue hempty => exact ⟨p, hp, hempty, run_allocateUserCallbackPage_handler hp hpage⟩
    case isFalse => cases hpage
  · obtain ⟨p', r', -, hrun⟩ := run_onSpaces_bind_error hrun
    split at hrun
    · cases hrun
    · obtain ⟨_, r'', -, hrun⟩ := run_onSpaces_bind_error hrun
      cases hrun

end

/-! ## The invariant -/

section

variable {s s' : HandlerSystem} {pid v : Nat} {pages : List Nat} {it : Iteration} {c : HandlerCall}

theorem pagesOf_of_others {x : Option (List Nat)} (hself : s'.pagesOf pid = x)
    (hothers : ∀ q, q ≠ pid → s'.spaces.byPid q = s.spaces.byPid q) (q : Nat) :
    s'.pagesOf q = if q = pid then x else s.pagesOf q := by
  split
  case isTrue heq => rw [heq, hself]
  case isFalse hne =>
    unfold HandlerSystem.pagesOf callbackPages
    rw [hothers q hne]

namespace Private

variable (h : Private s)

include h

theorem toServes : Serves s :=
  fun pid pages hpages address hmem => h.serves pid pages hpages (pageOf address) hmem

/-- The pages of one process change, and its handlers with them. -/
theorem replace {x : Option (List Nat)}
    (hpages : ∀ q, s'.pagesOf q = if q = pid then x else s.pagesOf q)
    (hothers : ∀ page q, q ≠ pid → (s'.handlers page = some q ↔ s.handlers page = some q))
    (hself : ∀ page, s'.handlers page = some pid ↔ ∃ pages, x = some pages ∧ page ∈ pages)
    (hlist : ∀ pages, x = some pages → (∀ page ∈ pages, pageOf page = page) ∧ pages.Nodup) :
    Private s' := by
  have hcases : ∀ q pages, s'.pagesOf q = some pages →
      (q = pid ∧ x = some pages) ∨ (q ≠ pid ∧ s.pagesOf q = some pages) := by
    intro q pages hq
    rw [hpages] at hq
    split at hq
    case isTrue heq => exact .inl ⟨heq, hq⟩
    case isFalse hne => exact .inr ⟨hne, hq⟩
  refine ⟨fun q pages hq page hmem => ?_, fun q pages hq page hmem => ?_, fun q pages hq => ?_,
    fun page q hq => ?_⟩
  · rcases hcases q pages hq with ⟨rfl, hx⟩ | ⟨hne, hold⟩
    · exact (hself page).mpr ⟨pages, hx, hmem⟩
    · exact (hothers page q hne).mpr (h.serves q pages hold page hmem)
  · rcases hcases q pages hq with ⟨rfl, hx⟩ | ⟨-, hold⟩
    · exact (hlist pages hx).1 page hmem
    · exact h.aligned q pages hold page hmem
  · rcases hcases q pages hq with ⟨rfl, hx⟩ | ⟨-, hold⟩
    · exact (hlist pages hx).2
    · exact h.nodup q pages hold
  · rw [hpages]
    split
    case isTrue heq => exact (hself page).mp (heq ▸ hq)
    case isFalse hne => exact h.known page q ((hothers page q hne).mp hq)

/-- The handlers of a process are those of its pages. -/
theorem handlers_iff {q : Nat} :
    s.handlers v = some q ↔ ∃ pages, s.pagesOf q = some pages ∧ v ∈ pages :=
  ⟨h.known v q, fun ⟨pages, hpages, hmem⟩ => h.serves q pages hpages v hmem⟩

/-- The pages and handlers of a process stay. -/
theorem keep (hself : s.pagesOf pid = some pages) (hhandlers : s'.handlers = s.handlers)
    (hpages : ∀ q, s'.pagesOf q = if q = pid then some pages else s.pagesOf q) : Private s' := by
  rw [← hself] at hpages
  refine h.replace hpages (fun page q _ => ?_) (fun page => ?_) fun pages' hx => ?_
  · rw [hhandlers]
  · rw [hhandlers, h.handlers_iff]
  · exact ⟨h.aligned pid pages' hx, h.nodup pid pages' hx⟩

/-- A process gets a page at which nobody has a handler. -/
theorem grow (hself : s.pagesOf pid = some pages)
    (hnone : s.handlers v = none) (haligned : pageOf v = v)
    (hhandlers : s'.handlers = Function.update s.handlers v (some pid))
    (hpages : ∀ q, s'.pagesOf q = if q = pid then some (pages ++ [v]) else s.pagesOf q) :
    Private s' := by
  have hnew : v ∉ pages := fun hmem => by
    rw [h.serves pid pages hself v hmem] at hnone
    cases hnone
  refine h.replace hpages (fun page q hne => ?_) (fun page => ?_) fun pages' hx => ?_
  · rw [hhandlers, Function.update_apply]
    split
    case isTrue heq =>
      rw [heq, hnone]
      simp [hne.symm]
    case isFalse => rfl
  · have hold : s.handlers page = some pid ↔ page ∈ pages := by
      rw [h.handlers_iff, hself]
      simp
    rw [hhandlers, Function.update_apply]
    split
    case isTrue heq => simp [heq]
    case isFalse hne => simp [hold, hne]
  · cases hx
    refine ⟨fun page hmem => ?_, ?_⟩
    · rcases List.mem_append.mp hmem with hold | hlast
      · exact h.aligned pid pages hself page hold
      · rw [List.mem_singleton.mp hlast, haligned]
    · refine List.nodup_append.mpr ⟨h.nodup pid pages hself, by simp, fun a ha b hb heq => ?_⟩
      exact hnew (List.mem_singleton.mp hb ▸ heq ▸ ha)

/-- A process without callback pages is new. -/
theorem enter (hnew : s.pagesOf pid = none) (hhandlers : s'.handlers = s.handlers)
    (hpages : ∀ q, s'.pagesOf q = if q = pid then some [] else s.pagesOf q) : Private s' := by
  refine h.replace hpages (fun page q _ => ?_) (fun page => ?_) fun pages hx => ?_
  · rw [hhandlers]
  · rw [hhandlers, h.handlers_iff, hnew]
    simp
  · cases hx
    exact ⟨by simp, List.nodup_nil⟩

/-- A process is gone, with its handlers. -/
theorem leave (hself : s.pagesOf pid = some pages)
    (hhandlers : ∀ page, s'.handlers page = if page ∈ pages then none else s.handlers page)
    (hpages : ∀ q, s'.pagesOf q = if q = pid then none else s.pagesOf q) : Private s' := by
  have hold : ∀ page, s.handlers page = some pid ↔ page ∈ pages := fun page => by
    rw [h.handlers_iff, hself]
    simp
  refine h.replace hpages (fun page q hne => ?_) (fun page => ?_) fun pages hx => by cases hx
  · rw [hhandlers]
    split
    case isTrue hmem =>
      rw [(hold page).mpr hmem]
      simp [hne.symm]
    case isFalse => rfl
  · rw [hhandlers]
    split
    case isTrue => simp
    case isFalse hmem => simp [hold, hmem]

/-! ## Calls -/

/-- A callback is created. -/
theorem createUserCallback {callback address : Nat} {argSizes : List Nat}
    (hrun : (createUserCallbackImpl pid callback argSizes).run s = .ok address s') :
    Private s' := by
  obtain ⟨p, r, hprocess, -⟩ := run_onSpaces_bind_ok hrun
  obtain ⟨hp, -⟩ := AddressSpaces.run_process_eq_ok.mp hprocess
  have hself : s.pagesOf pid = some p.userCallbacks.pages := callbackPages_eq_some.mpr ⟨p, hp, rfl⟩
  obtain ⟨hothers, ⟨-, hhandlers, hpages⟩ | ⟨-, virtPage, hfind, hnone, hhandlers, hpages⟩⟩ :=
    run_createUserCallbackImpl_cases hp hrun
  · exact h.keep hself hhandlers (pagesOf_of_others hpages hothers)
  · exact h.grow hself hnone (pageOf_findPages hfind) hhandlers (pagesOf_of_others hpages hothers)

/-- The destructor finds all handlers that it is to detach. -/
theorem run_releaseZombie : (∀ s', (releaseZombie it pid).run s ≠ .error .handler s') ∧
      ∀ s', (releaseZombie it pid).run s = .ok () s' → Private s' := by
  unfold FaultHandlers.releaseZombie
  rw [run_get_bind]
  by_cases hcurrent : s.spaces.current ≠ pid
  case neg =>
    rw [run_bind_error (run_check_neg hcurrent s)]
    exact ⟨fun _ => by simp, fun _ => by simp⟩
  rw [run_check_bind hcurrent]
  cases hp : s.spaces.byPid pid with
  | none =>
    have hprocess : (onSpaces (AddressSpaces.process pid)).run s =
        .error (.other .invalidPointer) s := by
      show onSpaces (AddressSpaces.process pid) s = _
      unfold onSpaces AddressSpaces.process
      rw [run_get_bind, hp]
      rfl
    rw [run_bind_error hprocess]
    exact ⟨fun _ => by simp, fun _ => by simp⟩
  | some p =>
    have hprocess : (onSpaces (AddressSpaces.process pid)).run s = .ok p s :=
      run_onSpaces_eq_ok.mpr ⟨s.spaces, AddressSpaces.run_process_eq_ok.mpr ⟨hp, rfl⟩, rfl⟩
    have hself : s.pagesOf pid = some p.userCallbacks.pages :=
      callbackPages_eq_some.mpr ⟨p, hp, rfl⟩
    obtain ⟨handlers, hdetach, hhandlers⟩ := run_each_detachFaultHandler
      (h.nodup pid _ hself) (fun page hmem => by
        rw [h.serves pid _ hself page hmem]
        exact Option.some_ne_none pid)
    rw [run_bind_ok hprocess, run_bind_ok hdetach]
    refine ⟨fun s' => run_onSpaces_ne _ _ s', fun s' hrun => ?_⟩
    obtain ⟨spaces, hrelease, rfl⟩ := run_onSpaces_eq_ok.mp hrun
    exact h.leave hself hhandlers (run_releaseZombie_callbackPages hrelease)

end Private

/-- A process is cloned: the child has the pages of its parent. -/
theorem run_clone_pagesOf {flags : Nat}
    (hrun : ((HandlerCall.clone pid flags).perform it).run s = .ok () s') :
    s'.handlers = s.handlers ∧ ∃ child pages, s.pagesOf child = none ∧ s.pagesOf pid = some pages ∧
      ∀ q, s'.pagesOf q = if q = child then some pages else s.pagesOf q := by
  obtain ⟨spaces, hclone, rfl⟩ := run_onSpaces_eq_ok.mp hrun
  obtain ⟨child, r, hclone, hrest⟩ := run_bind_eq_ok.mp hclone
  cases hrest
  obtain ⟨hfree, pages, hpages, hothers⟩ := run_clone_callbackPages hclone
  refine ⟨rfl, child, pages, ?_, hpages, hothers⟩
  unfold HandlerSystem.pagesOf callbackPages
  rw [hfree]
  rfl

theorem run_perform_create {callback : Nat} {argSizes : List Nat} :
    ((HandlerCall.createUserCallback pid callback argSizes).perform it).run s = .ok () s' ↔
      ∃ address, (createUserCallbackImpl pid callback argSizes).run s = .ok address s' := by
  constructor
  · intro hrun
    obtain ⟨address, r, hcreate, hrun⟩ := run_bind_eq_ok.mp hrun
    cases hrun
    exact ⟨address, hcreate⟩
  · intro h
    obtain ⟨address, hcreate⟩ := h
    exact run_bind_ok hcreate

/-- Detaching handlers leaves address spaces alone. -/
theorem run_each_detachFaultHandler_spaces {u : Unit}
    (hrun : (each detachFaultHandler pages).run s = .ok u s') : s'.spaces = s.spaces := by
  have hkeeps : Keeps (fun r : HandlerSystem => r.spaces = s.spaces)
      (each detachFaultHandler pages) :=
    keeps_each fun _ _ => keeps_get_bind fun _ hr => keeps_seq (keeps_check _ _) fun _ =>
      keeps_set hr
  exact hkeeps.of_ok hrun rfl

/-- The call on address spaces. -/
def HandlerCall.onSpaces : HandlerCall → AddressSpaces.Call
  | .createUserCallback pid callback argSizes => .createUserCallback pid callback argSizes
  | .clone pid flags => .clone pid flags
  | .releaseZombie pid => .releaseZombie pid

/-- A call that returns does to address spaces what the same call does there, where there are no
handlers. -/
theorem HandlerStep.performs (h : HandlerStep s c s') (trampoline : Nat) :
    AddressSpaces.Performs trampoline s.spaces c.onSpaces s'.spaces := by
  obtain ⟨it, hrun⟩ := h
  refine ⟨it, ?_⟩
  cases c with
  | createUserCallback pid callback argSizes =>
    obtain ⟨address, hcreate⟩ := run_perform_create.mp hrun
    obtain ⟨p, r, hprocess, -⟩ := run_onSpaces_bind_ok hcreate
    obtain ⟨hp, -⟩ := AddressSpaces.run_process_eq_ok.mp hprocess
    exact run_bind_ok (run_createUserCallbackImpl_spaces hp hcreate)
  | clone pid flags =>
    obtain ⟨spaces, hclone, rfl⟩ := run_onSpaces_eq_ok.mp hrun
    exact hclone
  | releaseZombie pid =>
    obtain ⟨-, hrun⟩ := run_check_bind_eq_ok.mp hrun
    obtain ⟨p, r, hprocess, hrun⟩ := run_onSpaces_bind_ok hrun
    obtain ⟨-, rfl⟩ := AddressSpaces.run_process_eq_ok.mp hprocess
    obtain ⟨_, r, hdetach, hrun⟩ := run_bind_eq_ok.mp hrun
    obtain ⟨spaces, hrelease, rfl⟩ := run_onSpaces_eq_ok.mp hrun
    rw [← run_each_detachFaultHandler_spaces hdetach]
    exact hrelease

/-- A call with the condition keeps handlers private. -/
theorem Private.perform (h : Private s) (halone : c.Alone s)
    (hrun : (c.perform it).run s = .ok () s') : Private s' := by
  cases c with
  | createUserCallback pid callback argSizes =>
    obtain ⟨address, hcreate⟩ := run_perform_create.mp hrun
    exact h.createUserCallback hcreate
  | clone pid flags =>
    obtain ⟨hhandlers, child, pages, hnew, hpages, hothers⟩ := run_clone_pagesOf hrun
    obtain rfl : pages = [] := halone pages hpages
    exact h.enter hnew hhandlers hothers
  | releaseZombie pid => exact h.run_releaseZombie.2 s' hrun

/-- A call with the condition meets no assertion about handlers. -/
theorem Private.not_handler (h : Private s) (halone : c.Alone s) :
    (c.perform it).run s ≠ .error .handler s' := by
  cases c with
  | createUserCallback pid callback argSizes =>
    intro hrun
    rcases run_bind_eq_error.mp hrun with hcreate | ⟨_, r, -, hrest⟩
    · obtain ⟨p, hp, hempty, virtPage, hfind, htaken⟩ :=
        run_createUserCallbackImpl_handler hcreate
      obtain ⟨q, hq⟩ := Option.ne_none_iff_exists'.mp htaken
      obtain ⟨pages, hpages, hmem⟩ := h.known virtPage q hq
      exact halone p hp hempty virtPage hfind q pages hpages hmem
    · cases hrest
  | clone pid flags => exact run_onSpaces_ne _ _ _
  | releaseZombie pid => exact h.run_releaseZombie.1 s'

/-- A call that returns and leaves every page with the handler of its process has the condition. -/
theorem Private.alone (h : Private s) (hrun : (c.perform it).run s = .ok () s')
    (hserves : Serves s') : c.Alone s := by
  cases c with
  | createUserCallback pid callback argSizes =>
    intro p hp hempty virtPage hfind q pages hpages hmem
    obtain ⟨address, hcreate⟩ := run_perform_create.mp hrun
    obtain ⟨-, ⟨hne, -⟩ | ⟨-, virtPage', hfind', hnone, -⟩⟩ :=
      run_createUserCallbackImpl_cases hp hcreate
    · exact hne hempty
    · cases hfind.symm.trans hfind'
      rw [h.serves q pages hpages virtPage hmem] at hnone
      cases hnone
  | clone pid flags =>
    intro pages hpages
    obtain ⟨hhandlers, child, pages', hnew, hpages', hothers⟩ := run_clone_pagesOf hrun
    cases hpages.symm.trans hpages'
    refine List.eq_nil_iff_forall_not_mem.mpr fun page hmem => ?_
    -- The page has the handler of the parent and would have to have that of the child.
    have haligned := h.aligned pid pages hpages page hmem
    have hchild := hserves child pages (by rw [hothers, if_pos rfl]) page (by rwa [haligned])
    unfold HandlerSystem.handlerOf at hchild
    rw [haligned, hhandlers, h.serves pid pages hpages page hmem] at hchild
    cases hchild
    rw [hnew] at hpages
    cases hpages
  | releaseZombie pid => exact trivial

/-- After calls with the condition, the next call respects the handlers of all processes if it has
the condition as well, and otherwise only if it stops for another reason. -/
theorem handlers_private_iff {s₀ : HandlerSystem} {calls : List HandlerCall} (hs₀ : Private s₀)
    (hcalls : Steps (Guarded (fun s c => c.Alone s) HandlerStep) s₀ calls s) (it : Iteration)
    (c : HandlerCall) : Serves s ∧ (c.Alone s → c.Respects it s) ∧
      ((∀ fault s', (c.perform it).run s ≠ .error (.other fault) s') → c.Respects it s →
        c.Alone s) := by
  have h : Private s := by
    refine hcalls.invariant Private (fun r c' r' hr hstep => ?_) hs₀
    obtain ⟨halone, it', hrun⟩ := hstep
    exact hr.perform halone hrun
  refine ⟨h.toServes, fun halone => ?_, fun hends hrespects => ?_⟩
  · exact ⟨fun s' => h.not_handler halone, fun s' hrun => (h.perform halone hrun).toServes⟩
  · cases hrun : (c.perform it).run s with
    | ok u s' => exact h.alone hrun (hrespects.2 s' hrun)
    | error fault s' =>
      cases fault with
      | handler => exact absurd hrun (hrespects.1 s')
      | other fault => exact absurd hrun (hends fault s')

/-- After calls with the condition, a fault runs the callback that a process has created for the
address exactly if the page is one of that process. -/
theorem page_fault_entry_iff {s₀ : HandlerSystem} {calls : List HandlerCall} (hs₀ : Private s₀)
    (hcalls : Steps (Guarded (fun s c => c.Alone s) HandlerStep) s₀ calls s) (fault : PageFault)
    (pid : Nat) (entry : CallbackEntry) : pageFaultEntry s fault = .callback pid entry ↔
      ∃ p, s.spaces.byPid pid = some p ∧ pageOf fault.address ∈ p.userCallbacks.pages ∧
        userCallbackFaultHandler p fault = some entry := by
  have h : Private s := hcalls.invariant Private
    (fun _ _ _ hr ⟨halone, _, hrun⟩ => hr.perform halone hrun) hs₀
  unfold pageFaultEntry
  dsimp only
  constructor
  · intro hreact
    split at hreact
    case h_1 hhandled =>
      subst hreact
      obtain ⟨q, hq, hhandled⟩ := Option.bind_eq_some_iff.mp hhandled
      obtain ⟨p, hp, hhandled⟩ := Option.bind_eq_some_iff.mp hhandled
      obtain ⟨e, he, hhandled⟩ := Option.bind_eq_some_iff.mp hhandled
      cases hhandled
      obtain ⟨pages, hpages, hmem⟩ := h.known _ _ hq
      obtain ⟨p', hp', rfl⟩ := callbackPages_eq_some.mp hpages
      cases hp.symm.trans hp'
      exact ⟨p, hp, hmem, he⟩
    case h_2 => cases hreact
    case h_3 => cases hreact
  · rintro ⟨p, hp, hmem, he⟩
    have hq : s.handlerOf fault.address = some pid :=
      h.serves pid _ (callbackPages_eq_some.mpr ⟨p, hp, rfl⟩) _ hmem
    simp [hq, hp, he]

end

/-! ## Two programs -/

/-- Page tables without entries. -/
def blankTables : PageTables := ⟨0, fun _ => {}⟩

/-- Two programs beside the current process, each with an address space of its own. -/
def twoPrograms : HandlerSystem where
  spaces :=
    { machine := blankMachine
      paging := blankTables
      tables := fun _ => ∅
      processes := [some { mappings := 0 }, some { mappings := 1 }, some { mappings := 2 }]
      current := 0
      nextTable := 3
      log := [] }
  handlers := fun _ => none

/-- Loops meet the entries of tables in the order of their addresses. -/
def inOrder : Iteration := AddressSpaces.inAddressOrder

theorem private_twoPrograms : Private twoPrograms := by
  have hpages : ∀ pid pages, twoPrograms.pagesOf pid = some pages → pages = [] := by
    intro pid pages hpages
    obtain ⟨p, hp, rfl⟩ := callbackPages_eq_some.mp hpages
    have hlt : pid < 3 := lt_length_of_slot hp
    obtain rfl | rfl | rfl : pid = 0 ∨ pid = 1 ∨ pid = 2 := by omega
    all_goals
      cases hp
      rfl
  refine ⟨fun pid pages h page hmem => ?_, fun pid pages h page hmem => ?_, fun pid pages h => ?_,
    fun page pid h => by cases h⟩
  · simp [hpages pid pages h] at hmem
  · simp [hpages pid pages h] at hmem
  · simp [hpages pid pages h]

/-- The first program creates its first callback. -/
theorem handlers_private_first : Private twoPrograms ∧
    (HandlerCall.createUserCallback 1 0 []).Respects inOrder twoPrograms := by
  refine ⟨private_twoPrograms,
    (handlers_private_iff private_twoPrograms (.refl _) inOrder _).2.1 ?_⟩
  intro p hp hempty virtPage hfind q pages hpages hmem
  have hhandler := private_twoPrograms.serves q pages hpages virtPage hmem
  cases hhandler

/-- The first program has created a callback with one argument. -/
def callbackCreated : HandlerSystem :=
  endState ((HandlerCall.createUserCallback 1 7 [4]).perform inOrder) twoPrograms

/-- A fault at the address of the callback runs it, unless it is a write. -/
theorem page_fault_entry_created : ∃ s,
    Steps (Guarded (fun s c => c.Alone s) HandlerStep) twoPrograms [.createUserCallback 1 7 [4]] s ∧
      pageFaultEntry s ⟨userVirtualBase, .user, .execute⟩ = .callback 1 ⟨[4], 7⟩ ∧
      ∀ pid entry, pageFaultEntry s ⟨userVirtualBase, .user, .write⟩ ≠ .callback pid entry := by
  have halone : (HandlerCall.createUserCallback 1 7 [4]).Alone twoPrograms := by
    intro p hp hempty virtPage hfind q pages hpages hmem
    have hhandler := private_twoPrograms.serves q pages hpages virtPage hmem
    cases hhandler
  have hsteps : Steps (Guarded (fun s c => c.Alone s) HandlerStep) twoPrograms
      ([] ++ [.createUserCallback 1 7 [4]]) callbackCreated :=
    .snoc (.refl _) ⟨halone, inOrder, run_of_outcome_ok (by decide +kernel)⟩
  have hcreated : (callbackCreated.spaces.byPid 1).map (fun p => (p.userCallbacks.pages,
      userCallbackFaultHandler p ⟨userVirtualBase, .user, .execute⟩)) =
        some ([userVirtualBase], some ⟨[4], 7⟩) := by
    decide +kernel
  obtain ⟨p, hp, heq⟩ := Option.map_eq_some_iff.mp hcreated
  obtain ⟨hpages, hentry⟩ := Prod.mk.inj heq
  refine ⟨callbackCreated, hsteps, (page_fault_entry_iff private_twoPrograms hsteps _ _ _).mpr
    ⟨p, hp, ?_, hentry⟩, fun pid entry h => ?_⟩
  · rw [hpages]
    decide
  · obtain ⟨q, -, -, he⟩ := (page_fault_entry_iff private_twoPrograms hsteps _ _ _).mp h
    cases he

/-- The first callback of the second program is to have the same page. -/
theorem callback_page_taken : Private twoPrograms ∧ ∃ s s',
    ((HandlerCall.createUserCallback 1 0 []).perform inOrder).run twoPrograms = .ok () s ∧
      ((HandlerCall.createUserCallback 2 0 []).perform inOrder).run s = .error .handler s' :=
  ⟨private_twoPrograms, _, _, run_of_outcome_ok (by decide +kernel),
    run_of_outcome_error (by decide +kernel)⟩

end LudOS.Tasking.FaultHandlers
