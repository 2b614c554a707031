import LudOS.Lib.Slots
import LudOS.Mem.Paging

/-!
# The address spaces of all processes

The functions of `tasking/process_pagemapping.cpp` and of `i686/tasking/process.cpp` that change
address spaces, on the whole system: the process list, the tables of mappings, which processes refer
to by shared pointers, the page tables, the allocator and physical memory. A table is known by a
number. `log` is not in the source: it records every page that is taken for an address space or
given back by one. The pages of a kernel stack belong to no address space and are not in it.

The order in which a loop over a hash table meets the entries is a parameter, `Iteration`. The
kernel's own addresses are left out: a temporary mapping is a direct access to physical memory, and
of a kernel stack there are the physical pages but not what the kernel keeps on it. The selector of
the thread-local storage is left out as well.

The lemmas at the end say when the parts that every function is made of return, and with what.
-/

namespace LudOS.Tasking.AddressSpaces

open Std (TreeMap)
open Lib Mem PageMapping

/-! ## State -/

/-- A table of mappings. -/
abbrev Mappings := TreeMap Nat MemoryMapping

/-- An order in which loops meet the entries of tables. -/
structure Iteration where
  order : Mappings → List (Nat × MemoryMapping)
  perm : ∀ mappings, (order mappings).Perm mappings.toList

/-- An iteration in the order of the addresses. -/
def inAddressOrder : Iteration := ⟨fun mappings => mappings.toList, fun _ => .refl _⟩

/-- The members of a process that describe its address space. `mappings` is the number of the table
that the shared pointer is to. -/
structure Process where
  mappings : Nat
  userCallbacks : UserCallbacks := {}
  tlsVaddr : Nat := 0
  /-- The physical pages behind `kernel_stack`. -/
  kernelStack : List Nat := []

/-- Everything that address spaces consist of. -/
structure System where
  machine : Machine
  paging : PageTables
  tables : Nat → Mappings
  processes : List (Option Process)
  current : Nat
  /-- The number that the next new table gets. -/
  nextTable : Nat
  log : List PhysPageAllocator.Event

/-- A function of the kernel. -/
abbrev SystemAction := EStateM Fault System

namespace System

/-- `Process::by_pid`. -/
def byPid (s : System) (pid : Nat) : Option Process := slot s.processes pid

/-- The table of a process. -/
def tableOf (s : System) (pid : Nat) : Option Nat := (s.byPid pid).map Process.mappings

/-- The pages of a process's kernel stack. -/
def stackOf (s : System) (pid : Nat) : List Nat := ((s.byPid pid).map Process.kernelStack).getD []

/-- The mapping of a virtual page in a table. -/
def lookup (s : System) (table virtAddr : Nat) : Option MemoryMapping := (s.tables table)[virtAddr]?

/-- The page at a physical address is marked as used. -/
def used (s : System) (addr : Nat) : Bool := s.machine.used addr

/-- `mappings.use_count()`. -/
def useCount (s : System) (table : Nat) : Nat :=
  s.processes.countP fun p => p.any fun p => p.mappings = table

/-- Replace a table. -/
def setTable (s : System) (table : Nat) (mappings : Mappings) : System :=
  { s with tables := Function.update s.tables table mappings }

/-- Add a mapping to a table. -/
def insert (s : System) (table virtAddr : Nat) (mapping : MemoryMapping) : System :=
  s.setTable table ((s.tables table).insert virtAddr mapping)

/-- Remove a mapping from a table. -/
def erase (s : System) (table virtAddr : Nat) : System :=
  s.setTable table ((s.tables table).erase virtAddr)

/-- Replace a process. -/
def setProcess (s : System) (pid : Nat) (p : Process) : System :=
  { s with processes := s.processes.set pid (some p) }

end System

/-! ## Parts of the system -/

/-- The process of a number; a pointer to a process that is gone cannot be used. -/
def process (pid : Nat) : SystemAction Process := do
  let s ← get
  match s.byPid pid with
  | none => throw .invalidPointer
  | some p => pure p

section

variable {α : Type}

/-- A function that only works on physical memory. -/
def onMachine (x : PageMapping.Action α) : SystemAction α := fun s =>
  match x.run s.machine with
  | .ok a machine => .ok a { s with machine }
  | .error fault machine => .error fault { s with machine }

/-- A function on the page tables. -/
def onPaging (x : EStateM Fault PageTables α) : SystemAction α := fun s =>
  match x.run s.paging with
  | .ok a paging => .ok a { s with paging }
  | .error fault paging => .error fault { s with paging }

/-- A function of the page allocator. -/
def onAllocator (x : EStateM Fault PhysPageAllocator α) : SystemAction α := fun s =>
  match x.run s.machine.allocator with
  | .ok a allocator => .ok a { s with machine := { s.machine with allocator } }
  | .error fault allocator => .error fault { s with machine := { s.machine with allocator } }

end

/-- Add to the log. -/
def record (event : PhysPageAllocator.Event) : SystemAction Unit :=
  modify fun s => { s with log := s.log ++ [event] }

/-- `Memory::allocate_physical_page`. -/
def allocatePhysicalPage : SystemAction Nat := do
  let page ← onMachine PageMapping.allocatePhysicalPage
  record (.alloc page)
  pure page

/-- `Memory::release_physical_page`. -/
def releasePhysicalPage (page : Nat) : SystemAction Unit := do
  let _ ← onAllocator (PhysPageAllocator.releasePhysicalPage page)
  record (.release page)

/-- `Memory::unmap_page`. -/
def unmapPage (virtAddr : Nat) : SystemAction Unit := do
  let _ ← onPaging (releaseVirtualPage virtAddr)

/-- `Memory::vmalloc`: the physical pages that it takes. -/
def vmalloc : (pages : Nat) → SystemAction (List Nat)
  | 0 => pure []
  | pages + 1 => do
    let physicalPage ← onMachine PageMapping.allocatePhysicalPage
    let rest ← vmalloc pages
    pure (physicalPage :: rest)

/-- `Memory::vfree` of the given physical pages. -/
def vfree (physicalPages : List Nat) : SystemAction Unit :=
  each (fun page => do let _ ← onAllocator (PhysPageAllocator.releasePhysicalPage page))
    physicalPages

/-! ## Functions of `Process` -/

/-- `Process::map_page`. -/
def mapPage (pid virtAddr physAddr flags : Nat) (owned : Bool) : SystemAction Unit := do
  let s ← get
  let p ← process pid
  let current ← process s.current
  (if p.mappings = current.mappings then onPaging (Mem.mapPage physAddr virtAddr flags)
    else pure ())
  let s ← get
  check .assertion ((s.tables p.mappings).contains virtAddr = false)
  set (s.insert p.mappings virtAddr ⟨physAddr, flags, owned⟩)

/-- The virtual address of page `i` of the code. -/
def codeAddr (i : Nat) : Nat := wadd (wmul i pageSize) userVirtualBase

/-- The virtual address of page `i` of the stack. -/
def stackAddr (i : Nat) : Nat :=
  wsub ((userStackTop - pageSize) / pageSize * pageSize) (wmul i pageSize)

/-- One iteration of `map_code`. -/
def mapCodePage (pid : Nat) (code : List UInt8) (i : Nat) : SystemAction Unit := do
  let physAddr ← allocatePhysicalPage
  onMachine (fillCodePage code i physAddr)
  check .assertion (physAddr ≠ 0)
  mapPage pid (codeAddr i) physAddr codeFlags true

/-- One iteration of `map_stack`. -/
def mapStackPage (pid i : Nat) : SystemAction Unit := do
  let physAddr ← allocatePhysicalPage
  check .assertion (physAddr ≠ 0)
  mapPage pid (stackAddr i) physAddr userFlags true

/-- `Process::create_mappings`; `trampoline` is the physical address of `signal_trampoline`. -/
def createMappings (trampoline pid : Nat) (code : List UInt8) (allocatedSize stackSize : Nat) :
    SystemAction Unit := do
  let _ ← process pid
  loop (mapCodePage pid code) 0 (pagesOf allocatedSize)
  loop (mapStackPage pid) 0 (pagesOf stackSize)
  mapPage pid signalTrampolinePage trampoline trampolineFlags false

/-- `Process::allocate_virtual_page`. -/
def allocateVirtualPage (pid count : Nat) : SystemAction Nat := do
  let p ← process pid
  let s ← get
  match findPages (s.tables p.mappings).contains count with
  | some addr => pure addr
  | none => throw .assertion

/-- The body that the loops of `allocate_pages` and `init_tls` share. -/
def mapNewPage (pid virtualPage : Nat) : SystemAction Nat := do
  let physicalPage ← allocatePhysicalPage
  mapPage pid virtualPage physicalPage userFlags true
  pure physicalPage

/-- A number of new pages in a row. -/
def mapNewPages (pid addr count : Nat) : SystemAction Unit :=
  loop (fun i => do let _ ← mapNewPage pid (addr + i * pageSize)) 0 count

/-- `Process::allocate_pages`. -/
def allocatePages (pid pages : Nat) : SystemAction Nat := do
  let addr ← allocateVirtualPage pid pages
  mapNewPages pid addr pages
  pure addr

/-- `Process::init_tls`. -/
def initTls (pid : Nat) : SystemAction Unit := do
  let addr ← allocateVirtualPage pid (tlsPages + 1)
  mapNewPages pid addr tlsPages
  let tlsControlVaddr := addr + tlsPages * pageSize
  let tlsControlPaddr ← mapNewPage pid tlsControlVaddr
  onMachine (writePhysical tlsControlPaddr 4 (Bytes.ofNat tlsControlVaddr))
  let p ← process pid
  modify fun s => s.setProcess pid { p with tlsVaddr := tlsControlVaddr }

/-- `Process::allocate_user_callback_page`. -/
def allocateUserCallbackPage (pid : Nat) : SystemAction Unit := do
  let virtPage ← allocateVirtualPage pid 1
  mapPage pid virtPage 0 sentinelFlags false
  let p ← process pid
  modify fun s => s.setProcess pid { p with userCallbacks :=
    { p.userCallbacks with
      freeEntries := p.userCallbacks.freeEntries ++ (List.range pageSize).map (virtPage + ·)
      pages := p.userCallbacks.pages ++ [virtPage] } }

/-- `Process::create_user_callback_impl`. -/
def createUserCallbackImpl (pid callback : Nat) (argSizes : List Nat) : SystemAction Nat := do
  let p ← process pid
  (if p.userCallbacks.freeEntries = [] then allocateUserCallbackPage pid else pure ())
  let p ← process pid
  match p.userCallbacks.freeEntries with
  | [] => throw .assertion
  | address :: freeEntries =>
    modify fun s => s.setProcess pid { p with userCallbacks :=
      { p.userCallbacks with
        freeEntries
        list := p.userCallbacks.list.insert address ⟨argSizes, callback⟩ } }
    pure address

/-- One iteration of `release_pages`. -/
def releasePage (pid ptr i : Nat) : SystemAction Unit := do
  let virtualPage := wadd ptr (wmul i pageSize)
  let p ← process pid
  let s ← get
  match s.lookup p.mappings virtualPage with
  | none => throw .assertion
  | some mapping =>
    releasePhysicalPage mapping.paddr
    unmapPage virtualPage
    check .assertion (mapping.owned = true)
    modify fun s => s.erase p.mappings virtualPage

/-- `Process::release_pages`. -/
def releasePages (pid ptr pages : Nat) : SystemAction Bool := do
  let _ ← process pid
  check .assertion (ptr % pageSize = 0)
  loop (releasePage pid ptr) 0 pages
  pure true

/-- The loop of `unmap_address_space`. -/
def unmapPages (pairs : List (Nat × MemoryMapping)) : EStateM Fault PageTables Unit :=
  each (fun pair => do let _ ← releaseVirtualPage pair.1) pairs

/-- The loop of `map_address_space`. -/
def mapPages (pairs : List (Nat × MemoryMapping)) : EStateM Fault PageTables Unit :=
  each (fun pair => Mem.mapPage pair.2.paddr pair.1 pair.2.flags) pairs

/-- The body of the loop of `release_mappings`. -/
def releaseOwned (pair : Nat × MemoryMapping) : SystemAction Unit :=
  if pair.2.owned then releasePhysicalPage pair.2.paddr else pure ()

section

variable (it : Iteration)

/-- `Process::unmap_address_space`. -/
def unmapAddressSpace (pid : Nat) : SystemAction Unit := do
  let p ← process pid
  let s ← get
  onPaging (unmapPages (it.order (s.tables p.mappings)))

/-- `Process::map_address_space`. -/
def mapAddressSpace (pid : Nat) : SystemAction Unit := do
  let p ← process pid
  let s ← get
  onPaging (mapPages (it.order (s.tables p.mappings)))

/-- `Process::release_mappings`. -/
def releaseMappings (pid : Nat) : SystemAction Unit := do
  let p ← process pid
  let s ← get
  if s.useCount p.mappings > 1 then pure ()
  else do
    each releaseOwned (it.order (s.tables p.mappings))
    modify fun s => s.setTable p.mappings ∅

/-- The body of `copy_page_directory` for one mapping of the parent. -/
def copyPage (target : Nat) (pair : Nat × MemoryMapping) : SystemAction Unit :=
  if pair.2.owned = false then pure ()
  else do
    let p ← process target
    modify fun s => s.insert p.mappings pair.1 pair.2
    check .assertion (pair.2.owned = true)
    let page ← allocatePhysicalPage
    modify fun s => s.insert p.mappings pair.1 { pair.2 with paddr := page }
    let s ← get
    onMachine (writePhysical page pageSize (s.machine.memory.view pair.2.paddr))

/-- `Process::copy_page_directory`. -/
def copyPageDirectory (pid target : Nat) : SystemAction Unit := do
  let p ← process pid
  let s ← get
  each (copyPage target) (it.order (s.tables p.mappings))

/-- `ProcessData::kernel_stack_size`. -/
def kernelStackSize : Nat := 0x2000

/-- `Process::create`: a process with a new, empty table and a kernel stack, which the constructor
gets from `arch_init`. -/
def create : SystemAction Nat := do
  let kernelStack ← vmalloc (kernelStackSize / pageSize)
  let s ← get
  let pid := firstFree s.processes
  set { s.setTable s.nextTable ∅ with
    processes := occupy s.processes pid { mappings := s.nextTable, kernelStack }
    nextTable := s.nextTable + 1 }
  pure pid

/-- `Process::clone`, as far as it concerns address spaces. -/
def clone (pid flags : Nat) : SystemAction Nat := do
  let p ← process pid
  let newProc ← create
  let child ← process newProc
  modify fun s => s.setProcess newProc { child with userCallbacks := p.userCallbacks }
  (if flags &&& cloneVm ≠ 0 then
    modify fun s => s.setProcess newProc
      { child with userCallbacks := p.userCallbacks, mappings := p.mappings }
  else copyPageDirectory it pid newProc)
  initTls newProc
  pure newProc

/-- `Process::switch_mappings` between two processes. -/
def switchMappings (prev next : Nat) : SystemAction Unit := do
  let p ← process prev
  let q ← process next
  if p.mappings ≠ q.mappings then do
    unmapAddressSpace it prev
    mapAddressSpace it next
  else pure ()

/-- `Process::task_switch`. -/
def taskSwitch (pid : Nat) : SystemAction Unit := do
  let s ← get
  check .assertion (pid ≠ s.current)
  check .assertion (s.byPid pid ≠ none)
  switchMappings it s.current pid
  modify fun s => { s with current := pid }

/-- `Process::load_user_code`, as far as it concerns address spaces. -/
def loadUserCode (trampoline pid : Nat) (code : List UInt8) (allocatedSize : Nat) :
    SystemAction Unit := do
  let s ← get
  (if s.current = pid then unmapAddressSpace it pid else pure ())
  releaseMappings it pid
  createMappings trampoline pid code allocatedSize (2 * pageSize)
  initTls pid

/-- `Process::release_zombie`: the destructors of the process and of its `ProcessData` run, and its
pointer in the process list is reset. -/
def releaseZombie (pid : Nat) : SystemAction Unit := do
  let s ← get
  check .assertion (s.current ≠ pid)
  let p ← process pid
  releaseMappings it pid
  vfree p.kernelStack
  modify fun s => { s with processes := s.processes.set pid none }

end

/-! ## Calls -/

/-- The functions that other parts of the kernel call. -/
inductive Call where
  | create
  | clone (pid flags : Nat)
  | createMappings (pid : Nat) (code : List UInt8) (allocatedSize stackSize : Nat)
  | initTls (pid : Nat)
  | allocatePages (pid pages : Nat)
  | releasePages (pid ptr pages : Nat)
  | createUserCallback (pid callback : Nat) (argSizes : List Nat)
  | loadUserCode (pid : Nat) (code : List UInt8) (allocatedSize : Nat)
  | taskSwitch (pid : Nat)
  | releaseZombie (pid : Nat)

/-- The call of the function. -/
def Call.perform (trampoline : Nat) (it : Iteration) : Call → SystemAction Unit
  | .create => do let _ ← AddressSpaces.create
  | .clone pid flags => do let _ ← AddressSpaces.clone it pid flags
  | .createMappings pid code allocatedSize stackSize =>
    AddressSpaces.createMappings trampoline pid code allocatedSize stackSize
  | .initTls pid => AddressSpaces.initTls pid
  | .allocatePages pid pages => do let _ ← AddressSpaces.allocatePages pid pages
  | .releasePages pid ptr pages => do let _ ← AddressSpaces.releasePages pid ptr pages
  | .createUserCallback pid callback argSizes => do
    let _ ← createUserCallbackImpl pid callback argSizes
  | .loadUserCode pid code allocatedSize =>
    AddressSpaces.loadUserCode it trampoline pid code allocatedSize
  | .taskSwitch pid => AddressSpaces.taskSwitch it pid
  | .releaseZombie pid => AddressSpaces.releaseZombie it pid

/-- The call returns. Its loops may meet the entries of tables in any order. -/
def Performs (trampoline : Nat) (s : System) (c : Call) (s' : System) : Prop :=
  ∃ it, (c.perform trampoline it).run s = .ok () s'

/-! ## Reading the state -/

section

variable {s s' : System} {table virtAddr t v pid : Nat} {mapping : MemoryMapping} {α : Type}
  {u : Unit} {p : Process}

@[simp] theorem lookup_setTable (s : System) (table t v : Nat) (mappings : Mappings) :
    (s.setTable table mappings).lookup t v = if t = table then mappings[v]? else s.lookup t v := by
  unfold System.setTable System.lookup
  dsimp only
  by_cases h : t = table
  · subst h
    rw [Function.update_self, if_pos rfl]
  · rw [Function.update_of_ne h, if_neg h]

/-- A table that differs at one address. -/
theorem lookup_setTable_at (s : System) {table virtAddr : Nat}
    {mappings : TreeMap Nat MemoryMapping}
    {entry : Option MemoryMapping} (h : ∀ v, mappings[v]? =
      if compare virtAddr v = .eq then entry else (s.tables table)[v]?) (t v : Nat) :
    (s.setTable table mappings).lookup t v =
      if t = table ∧ v = virtAddr then entry else s.lookup t v := by
  rw [lookup_setTable, h]
  by_cases ht : t = table
  · subst ht
    simp only [Nat.compare_eq_eq, @eq_comm _ virtAddr, true_and, if_true]
    rfl
  · rw [if_neg ht, if_neg (fun h => ht h.1)]

theorem lookup_insert (s : System) (table virtAddr t v : Nat) (mapping : MemoryMapping) :
    (s.insert table virtAddr mapping).lookup t v =
      if t = table ∧ v = virtAddr then some mapping else s.lookup t v :=
  lookup_setTable_at s (fun _ => TreeMap.getElem?_insert) t v

theorem lookup_erase (s : System) (table virtAddr t v : Nat) : (s.erase table virtAddr).lookup t v =
      if t = table ∧ v = virtAddr then none else s.lookup t v :=
  lookup_setTable_at s (fun _ => TreeMap.getElem?_erase) t v

theorem contains_eq_false_iff : (s.tables t).contains v = false ↔ s.lookup t v = none := by
  unfold System.lookup
  rw [TreeMap.contains_eq_isSome_getElem?, Option.isSome_eq_false_iff, Option.isNone_iff_eq_none]

theorem tableOf_eq_some {s : System} : s.tableOf pid = some t ↔
    ∃ p, s.byPid pid = some p ∧ p.mappings = t := by
  unfold System.tableOf
  rw [Option.map_eq_some_iff]

theorem byPid_setProcess (hp : s.byPid pid = some p) (p' : Process) (q : Nat) :
    (s.setProcess pid p').byPid q = if q = pid then some p' else s.byPid q :=
  slot_set_some hp p' q

theorem setProcess_setProcess (s : System) (pid : Nat) (p q : Process) :
    (s.setProcess pid p).setProcess pid q = s.setProcess pid q := by
  unfold System.setProcess
  dsimp only
  rw [List.set_set]

/-- A process is replaced by one with the same table. -/
theorem tableOf_setProcess {q : Process} (hp : s.byPid pid = some p)
    (hq : q.mappings = p.mappings) (pid' : Nat) :
    (s.setProcess pid q).tableOf pid' = s.tableOf pid' := by
  unfold System.tableOf
  rw [byPid_setProcess hp]
  by_cases h : pid' = pid
  · rw [if_pos h, h, hp, Option.map_some, Option.map_some, hq]
  · rw [if_neg h]

/-- A process is replaced by one with the same kernel stack. -/
theorem stackOf_setProcess {q : Process} (hp : s.byPid pid = some p)
    (hq : q.kernelStack = p.kernelStack) (pid' : Nat) :
    (s.setProcess pid q).stackOf pid' = s.stackOf pid' := by
  unfold System.stackOf
  rw [byPid_setProcess hp]
  by_cases h : pid' = pid
  · rw [if_pos h, h, hp, Option.map_some, Option.map_some, hq]
  · rw [if_neg h]

theorem stackOf_eq (hp : s.byPid pid = some p) : s.stackOf pid = p.kernelStack := by
  unfold System.stackOf
  rw [hp]
  rfl

/-! ## Parts that return -/

theorem run_process_eq_ok : (process pid).run s = .ok p s' ↔ s.byPid pid = some p ∧ s = s' := by
  unfold process
  rw [run_get_bind]
  cases hp : s.byPid pid with
  | none =>
    constructor
    · rintro ⟨⟩
    · rintro ⟨⟨⟩, -⟩
  | some q => simp

theorem run_process_bind {α : Type} {f : Process → SystemAction α}
    (hp : s.byPid pid = some p) : (process pid >>= f).run s = (f p).run s :=
  run_bind_ok (run_process_eq_ok.mpr ⟨hp, rfl⟩)

theorem run_process_bind_eq_ok {α : Type} {f : Process → SystemAction α} {a : α} :
    (process pid >>= f).run s = .ok a s' ↔ ∃ p, s.byPid pid = some p ∧ (f p).run s = .ok a s' := by
  rw [run_bind_eq_ok]
  constructor
  · rintro ⟨p, r, hprocess, hrun⟩
    obtain ⟨hp, rfl⟩ := run_process_eq_ok.mp hprocess
    exact ⟨p, hp, hrun⟩
  · rintro ⟨p, hp, hrun⟩
    exact ⟨p, s, run_process_eq_ok.mpr ⟨hp, rfl⟩, hrun⟩

theorem run_onMachine_eq_ok {x : PageMapping.Action α} {a : α} : (onMachine x).run s = .ok a s' ↔
      ∃ machine, x.run s.machine = .ok a machine ∧ s' = { s with machine } := by
  show onMachine x s = .ok a s' ↔ _
  unfold onMachine
  cases x.run s.machine with
  | ok b t => simp [eq_comm]
  | error e t => simp

theorem run_onPaging_eq_ok {x : EStateM Fault PageTables α} {a : α} :
    (onPaging x).run s = .ok a s' ↔
      ∃ paging, x.run s.paging = .ok a paging ∧ s' = { s with paging } := by
  show onPaging x s = .ok a s' ↔ _
  unfold onPaging
  cases x.run s.paging with
  | ok b t => simp [eq_comm]
  | error e t => simp

theorem run_onAllocator_eq_ok {x : EStateM Fault PhysPageAllocator α} {a : α} :
    (onAllocator x).run s = .ok a s' ↔ ∃ allocator, x.run s.machine.allocator = .ok a allocator ∧
      s' = { s with machine := { s.machine with allocator } } := by
  show onAllocator x s = .ok a s' ↔ _
  unfold onAllocator
  cases x.run s.machine.allocator with
  | ok b t => simp [eq_comm]
  | error e t => simp

/-- `allocate_physical_page` with a free page left, and without. -/
theorem run_allocatePhysicalPage_cases (s : System) :
    (∃ page machine, Takes s.machine page machine ∧ allocatePhysicalPage.run s = .ok page
        { s with machine, log := s.log ++ [.alloc page] }) ∨
    ((∀ i < pageCount, s.used (i * pageSize) = true) ∧
      ∃ t, allocatePhysicalPage.run s = .error .panic t) := by
  rcases PageMapping.run_allocatePhysicalPage s.machine with
    ⟨page, machine, htakes, hok⟩ | ⟨hfull, t, herror⟩
  · exact .inl ⟨page, machine, htakes, run_bind_ok (run_onMachine_eq_ok.mpr ⟨_, hok, rfl⟩)⟩
  · have hmachine : (onMachine PageMapping.allocatePhysicalPage).run s =
        .error .panic { s with machine := t } := by
      show onMachine _ s = _
      unfold onMachine
      rw [herror]
    exact .inr ⟨hfull, _, run_bind_error hmachine⟩

/-- `allocate_physical_page` that returns has taken a free page. -/
theorem run_allocatePhysicalPage_eq_ok {page : Nat}
    (hrun : allocatePhysicalPage.run s = .ok page s') : ∃ machine,
      Takes s.machine page machine ∧ s' = { s with machine, log := s.log ++ [.alloc page] } := by
  rcases run_allocatePhysicalPage_cases s with ⟨page', machine, htakes, hok⟩ | ⟨-, t, herror⟩
  · cases hok.symm.trans hrun
    exact ⟨machine, htakes, rfl⟩
  · cases herror.symm.trans hrun

/-- With a free page left the allocation returns. -/
theorem exists_run_allocatePhysicalPage (hroom : ∃ i < pageCount, s.used (i * pageSize) = false) :
    ∃ page machine, Takes s.machine page machine ∧ allocatePhysicalPage.run s = .ok page
        { s with machine, log := s.log ++ [.alloc page] } := by
  rcases run_allocatePhysicalPage_cases s with hok | ⟨hfull, -⟩
  · exact hok
  · obtain ⟨i, hi, hfree⟩ := hroom
    rw [hfull i hi] at hfree
    cases hfree

/-- The system after a page has been given back. -/
def System.freed (s : System) (page : Nat) : System :=
  { s with
    machine := { s.machine with allocator := { s.machine.allocator with
      memBitmap := s.machine.allocator.memBitmap.set (page / pageSize) false
      lastPos := page / pageSize
      allocatedPages := s.machine.allocator.allocatedPages - 1 } }
    log := s.log ++ [.release page] }

/-- The pages that `release_physical_page` accepts, and what it does. -/
theorem run_releasePhysicalPage_eq_ok {page : Nat} :
    (releasePhysicalPage page).run s = .ok u s' ↔ s.used page = true ∧ s' = s.freed page := by
  unfold releasePhysicalPage
  constructor
  · intro hrun
    obtain ⟨released, r, hallocator, hrun⟩ := run_bind_eq_ok.mp hrun
    obtain ⟨allocator, hrelease, rfl⟩ := run_onAllocator_eq_ok.mp hallocator
    obtain ⟨hused, -, rfl⟩ := PhysPageAllocator.run_releasePhysicalPage_eq_ok.mp hrelease
    cases hrun
    exact ⟨hused, rfl⟩
  · rintro ⟨hused, rfl⟩
    have hrelease := PhysPageAllocator.run_releasePhysicalPage_eq_ok.mpr ⟨hused, rfl, rfl⟩
    rw [run_bind_ok (run_onAllocator_eq_ok.mpr ⟨_, hrelease, rfl⟩)]
    rfl

/-- `unmap_page` of an entry that is claimed. -/
theorem run_unmapPage_eq_ok : (unmapPage v).run s = .ok u s' ↔
    (s.paging.entry v).osClaimed = true ∧ s' = { s with paging := s.paging.release v } := by
  unfold unmapPage
  constructor
  · intro hrun
    obtain ⟨released, r, hpaging, hrun⟩ := run_bind_eq_ok.mp hrun
    obtain ⟨paging, hrelease, rfl⟩ := run_onPaging_eq_ok.mp hpaging
    obtain ⟨hclaimed, -, rfl⟩ := run_releaseVirtualPage_eq_ok.mp hrelease
    cases hrun
    exact ⟨hclaimed, rfl⟩
  · rintro ⟨hclaimed, rfl⟩
    have hrelease := run_releaseVirtualPage_eq_ok.mpr ⟨hclaimed, rfl, rfl⟩
    rw [run_bind_ok (run_onPaging_eq_ok.mpr ⟨_, hrelease, rfl⟩)]
    rfl

/-- The page tables after `map_page` for a table: those of the current process have a new entry,
others do not. -/
def MapsTo (s : System) (table virtAddr paddr flags : Nat) (paging : PageTables) : Prop :=
  if s.tableOf s.current = some table then
    (Mem.mapPage paddr virtAddr flags).run s.paging = .ok () paging
  else paging = s.paging

theorem mapsTo_of_current {paddr flags : Nat} {paging : PageTables}
    (h : s.tableOf s.current = some t) : MapsTo s t v paddr flags paging ↔
      (Mem.mapPage paddr v flags).run s.paging = .ok () paging := by
  rw [MapsTo, if_pos h]

theorem mapsTo_of_ne {paddr flags : Nat} {paging : PageTables}
    (h : s.tableOf s.current ≠ some t) : MapsTo s t v paddr flags paging ↔ paging = s.paging := by
  rw [MapsTo, if_neg h]

theorem run_mapsTo_eq_ok {paddr flags c : Nat} (hc : s.tableOf s.current = some c) :
    (if t = c then onPaging (Mem.mapPage paddr v flags) else pure ()).run s = .ok u s' ↔
      ∃ paging, MapsTo s t v paddr flags paging ∧ s' = { s with paging } := by
  split
  case isTrue hsame =>
    subst hsame
    simp only [mapsTo_of_current hc, run_onPaging_eq_ok]
  case isFalse hother =>
    have hne : s.tableOf s.current ≠ some t := fun h => hother (Option.some.inj (h.symm.trans hc))
    simp only [mapsTo_of_ne hne, exists_eq_left]
    constructor
    · rintro ⟨⟩
      rfl
    · rintro rfl
      rfl

theorem run_mapPage_eq_ok {paddr flags : Nat} {owned : Bool} :
    (mapPage pid v paddr flags owned).run s = .ok u s' ↔
      ∃ table paging, s.tableOf pid = some table ∧ s.tableOf s.current ≠ none ∧
        MapsTo s table v paddr flags paging ∧ s.lookup table v = none ∧
        s' = System.insert { s with paging } table v ⟨paddr, flags, owned⟩ := by
  unfold mapPage
  rw [run_get_bind]
  constructor
  · intro hrun
    obtain ⟨p, hp, hrun⟩ := run_process_bind_eq_ok.mp hrun
    obtain ⟨c, hc, hrun⟩ := run_process_bind_eq_ok.mp hrun
    obtain ⟨_, r, hpaging, hrun⟩ := run_bind_eq_ok.mp hrun
    have hcurrent : s.tableOf s.current = some c.mappings := tableOf_eq_some.mpr ⟨c, hc, rfl⟩
    obtain ⟨paging, hmaps, rfl⟩ := (run_mapsTo_eq_ok hcurrent).mp hpaging
    obtain ⟨hfree, hrun⟩ := run_check_bind_eq_ok.mp hrun
    cases hrun
    refine ⟨p.mappings, paging, tableOf_eq_some.mpr ⟨p, hp, rfl⟩, ?_, hmaps,
      contains_eq_false_iff.mp hfree, rfl⟩
    rw [hcurrent]
    rintro ⟨⟩
  · rintro ⟨table, paging, htable, hcurrent, hmaps, hfree, rfl⟩
    obtain ⟨p, hp, rfl⟩ := tableOf_eq_some.mp htable
    obtain ⟨c, hc⟩ := Option.ne_none_iff_exists'.mp hcurrent
    obtain ⟨q, hq, rfl⟩ := tableOf_eq_some.mp hc
    have hpaging := (@run_mapsTo_eq_ok _ _ _ _ () _ _ _ hc).mpr ⟨paging, hmaps, rfl⟩
    rw [run_process_bind hp, run_process_bind hq, run_bind_ok hpaging, run_get_bind,
      run_check_bind (contains_eq_false_iff.mpr hfree)]
    rfl

/-- `map_page` of an address that is free in the table and, if the table is that of the current
process, in the page tables. -/
theorem exists_run_mapPage (htable : s.tableOf pid = some t) (hlive : s.tableOf s.current ≠ none)
    (hfree : s.lookup t v = none)
    (habsent : s.tableOf s.current = some t → (s.paging.entry v).present = false)
    (paddr flags : Nat) (owned : Bool) :
    ∃ s', (mapPage pid v paddr flags owned).run s = .ok () s' := by
  by_cases hcurrent : s.tableOf s.current = some t
  · have hmap : (Mem.mapPage paddr v flags).run s.paging = .ok () _ :=
      Mem.run_mapPage_eq_ok.mpr ⟨habsent hcurrent, rfl⟩
    exact ⟨_, run_mapPage_eq_ok.mpr
      ⟨t, _, htable, hlive, (mapsTo_of_current hcurrent).mpr hmap, hfree, rfl⟩⟩
  · exact ⟨_, run_mapPage_eq_ok.mpr
      ⟨t, _, htable, hlive, (mapsTo_of_ne hcurrent).mpr rfl, hfree, rfl⟩⟩

end

end LudOS.Tasking.AddressSpaces
