import LudOS.Tasking.World

/-!
# The process table

The functions of `tasking/process.cpp` and `i686/tasking/process.cpp` that create, end and release
processes, and `sys_waitpid`, with the data that passes from a child to the parent that waits for
it: the exit code, the address it is stored at, and the pid that ends the wait.

A call of the scheduler at the end of a function is a section of its own: `schedule()` runs
`delete_zombie_processes`, which may happen at any other time as well.
-/

namespace LudOS.Tasking.ProcessTable

open Lib

/-! ## State -/

/-- `WaitEntry` of `process_data.hpp`. -/
structure WaitEntry where
  processWaiting : Nat
  statusPhys : Nat
  deriving DecidableEq, Repr

/-- `Process` and `ProcessData`, as far as they tie processes to each other. -/
structure Process where
  status : Status := .active
  tgid : Nat := 0
  parent : Nat := 0
  children : List Nat := []
  waitEntries : List WaitEntry := []
  wokeUpBy : Nat := 0
  waitstatusPhys : Nat := 0
  deriving DecidableEq, Repr

/-- `m_processes`, and the words of physical memory that exit codes are stored in. -/
structure Table where
  processes : List (Option Process) := []
  memory : Nat → Int := fun _ => 0

/-- A function of the class. -/
abbrev TableAction := EStateM Fault Table

namespace Table

/-- `Process::by_pid`. -/
def byPid (t : Table) (pid : Nat) : Option Process := slot t.processes pid

/-- The table with one process replaced. -/
def setProcess (t : Table) (pid : Nat) (p : Process) : Table :=
  { t with processes := t.processes.set pid (some p) }

/-- The process exists and is not a zombie. -/
def Live (t : Table) (pid : Nat) : Prop := ∃ p, t.byPid pid = some p ∧ p.status ≠ .zombie

end Table

/-- The process behind a pid. -/
def process (pid : Nat) : TableAction Process := do
  match (← get).byPid pid with
  | some p => pure p
  | none => throw .invalidPointer

/-- Change the process behind a pid. -/
def update (pid : Nat) (f : Process → Process) : TableAction Unit := do
  let p ← process pid
  modify (·.setProcess pid (f p))

/-! ## Creation -/

/-- `CLONE_PARENT`. -/
def cloneParent : UInt32 := 0x00008000

/-- `CLONE_THREAD`. -/
def cloneThread : UInt32 := 0x00010000

/-- `Process::create`. -/
def create : TableAction Nat := do
  let t ← get
  let freeIdx := firstFree t.processes
  set { t with processes := occupy t.processes freeIdx { tgid := freeIdx } }
  pure freeIdx

/-- `Process::clone` of the process `proc`, as far as it touches other processes. -/
def clone (proc : Nat) (flags : UInt32) : TableAction Nat := do
  let p ← process proc
  let pid ← create
  (if flags &&& cloneThread ≠ 0 then update pid ({ · with tgid := proc }) else pure ())
  if flags &&& cloneParent ≠ 0 then
    update p.parent fun q => { q with children := q.children ++ [pid] }
    update pid ({ · with parent := p.parent })
  else
    update proc fun q => { q with children := q.children ++ [pid] }
    update pid ({ · with parent := proc })
  pure pid

/-! ## Waiting -/

/-- `Process::wait_for` up to the call of the scheduler. -/
def waitFor (current pid statusPhys : Nat) : TableAction Unit := do
  check .assertion (((← get).byPid pid).isSome)
  update pid fun p => { p with waitEntries := p.waitEntries ++ [⟨current, statusPhys⟩] }
  update current ({ · with waitstatusPhys := statusPhys })
  update current ({ · with status := .childWait })

/-- `Process::wake_up`. -/
def wakeUp (waiting awakener : Nat) (errCode : Int) : TableAction Unit := do
  let p ← process waiting
  modify fun t => { t with memory := Function.update t.memory p.waitstatusPhys errCode }
  update waiting ({ · with wokeUpBy := awakener })
  update waiting ({ · with status := .active })

/-- How far a call of `sys_waitpid` has come: it has returned, or it is blocked and has to wait for
the remaining children afterwards. -/
inductive Waited where
  | returned (result : Int)
  | blocked (remaining : List Nat)
  deriving DecidableEq, Repr

/-- `ECHILD`. -/
def echild : Int := 10

/-- `EFAULT`. -/
def efault : Int := 14

/-- `EINVAL`. -/
def einval : Int := 22

/-- The loop of `sys_waitpid` over the children that are still to be waited for, and its end. -/
def waitNext (current statusPhys : Nat) : List Nat → TableAction Waited
  | [] => do
    let p ← process current
    pure (.returned p.wokeUpBy)
  | child :: children => do
    waitFor current child statusPhys
    pure (.blocked children)

/-- `sys_waitpid`, called by the process `current`. A pointer that fails its check is `none`. -/
def sysWaitpid (current : Nat) (pid : Int) (wstatus : Option Nat) : TableAction Waited :=
  match wstatus with
  | none => pure (.returned (-efault))
  | some statusPhys =>
    if pid = -1 then do
      let p ← process current
      waitNext current statusPhys p.children
    else if 0 < pid then do
      let p ← process current
      match (← get).byPid pid.toNat with
      | none => pure (.returned (-echild))
      | some child =>
        if (child.parent ≠ current ∧ child.tgid ≠ p.tgid) ∨ child.status = .zombie then
          pure (.returned (-echild))
        else
          waitFor current pid.toNat statusPhys
          pure (.blocked [])
    else pure (.returned (-einval))

/-! ## The end of a process -/

/-- One child of a killed process is handed to the init process. -/
def reparent (child : Nat) : TableAction Unit := do
  update child ({ · with parent := 0 })
  update 0 fun p => { p with children := p.children ++ [child] }

/-- One process that waits for a killed process is woken up. -/
def wakeWaiting (pid : Nat) (errCode : Int) (entry : WaitEntry) : TableAction Unit := do
  let p ← process entry.processWaiting
  check .assertion (p.status = .childWait)
  wakeUp entry.processWaiting pid errCode

/-- `Process::kill`. The `SIGCHLD` it raises in the parent is ignored by default. -/
def kill (pid : Nat) (errCode : Int) : TableAction Unit := do
  check .panic (pid ≠ 0)
  check .assertion (((← get).byPid pid).isSome)
  update pid ({ · with status := .zombie })
  let p ← process pid
  each reparent p.children
  let p ← process pid
  check .assertion (((← get).byPid p.parent).isSome)
  each (wakeWaiting pid errCode) p.waitEntries

/-- `Process::release_zombie`, called while the process `current` runs. -/
def releaseZombie (current pid : Nat) : TableAction Unit := do
  check .assertion (current ≠ pid)
  let p ← process pid
  check .assertion (p.status = .zombie)
  match (← get).byPid p.parent with
  | none => throw .assertion
  | some parent =>
    check .assertion (pid ∈ parent.children)
    modify (·.setProcess p.parent { parent with children := parent.children.filter (· ≠ pid) })
    modify fun t => { t with processes := t.processes.set pid none }

/-- The body of the loop of `delete_zombie_processes`. -/
def deleteIfZombie (current pid : Nat) : TableAction Unit := do
  match (← get).byPid pid with
  | none => pure ()
  | some p =>
    if p.status = .zombie ∧ pid ≠ current then releaseZombie current pid else pure ()

/-- `delete_zombie_processes`. -/
def deleteZombieProcesses (current : Nat) : TableAction Unit := do
  let t ← get
  each (deleteIfZombie current) (List.range t.processes.length)

/-! ## What the functions do -/

section

variable {t t' : Table} {pid : Nat} {p : Process}

section

variable (h : t.byPid pid = some p)

include h

theorem Table.byPid_setProcess (p' : Process) (q : Nat) :
    (t.setProcess pid p').byPid q = if q = pid then some p' else t.byPid q :=
  slot_set_some h p' q

theorem run_process : (process pid).run t = .ok p t := by
  rw [process, run_get_bind, h]
  rfl

theorem run_update (f : Process → Process) :
    (update pid f).run t = .ok () (t.setProcess pid (f p)) := by
  rw [update, run_bind_ok (run_process h)]
  rfl

end

/-- An update of one process, seen from all of them. -/
theorem run_update_map (h : t.byPid pid = some p) (f : Process → Process) :
    ∃ t', (update pid f).run t = .ok () t' ∧ t'.memory = t.memory ∧
      ∀ q, t'.byPid q = (t.byPid q).map fun r => if q = pid then f r else r := by
  refine ⟨_, run_update h f, rfl, fun q => ?_⟩
  rw [Table.byPid_setProcess h]
  by_cases hq : q = pid
  · simp [hq, h]
  · simp [hq]

/-- What `kill` does to the children of the process and to the init process. -/
def reparented (children : List Nat) (q : Nat) (p : Process) : Process :=
  { p with
    parent := if q ∈ children then 0 else p.parent
    children := if q = 0 then p.children ++ children else p.children }

theorem reparented_cons (c : Nat) (children : List Nat) (q : Nat) (r : Process) :
    reparented children q
        ((fun p => if q = 0 then { p with children := p.children ++ [c] } else p)
          (if q = c then { r with parent := 0 } else r)) = reparented (c :: children) q r := by
  rcases eq_or_ne q c with rfl | hqc <;> rcases eq_or_ne q 0 with rfl | hq0 <;> simp [reparented, *]

theorem run_each_reparent (children : List Nat) (hchildren : ∀ c ∈ children, (t.byPid c).isSome)
    (hinit : (t.byPid 0).isSome) :
    ∃ t', (each reparent children).run t = .ok () t' ∧ t'.memory = t.memory ∧
      ∀ q, t'.byPid q = (t.byPid q).map (reparented children q) := by
  induction children generalizing t with
  | nil =>
    refine ⟨t, rfl, rfl, fun q => ?_⟩
    cases t.byPid q with
    | none => rfl
    | some r => simp [reparented]
  | cons c children ih =>
    obtain ⟨child, hc⟩ := Option.isSome_iff_exists.mp (hchildren c List.mem_cons_self)
    obtain ⟨t₁, hrun₁, hmem₁, hby₁⟩ := run_update_map hc ({ · with parent := 0 })
    obtain ⟨init, h0⟩ := Option.isSome_iff_exists.mp hinit
    obtain ⟨t₂, hrun₂, hmem₂, hby₂⟩ := run_update_map ((hby₁ 0).trans (congrArg _ h0))
      fun p => { p with children := p.children ++ [c] }
    obtain ⟨t', hrun, hmem, hby⟩ := ih (t := t₂)
      (fun c' hc' => by
        have := hchildren c' (List.mem_cons_of_mem c hc')
        simpa [hby₂, hby₁] using this) (by simpa [hby₂, hby₁] using hinit)
    refine ⟨t', ?_, hmem.trans (hmem₂.trans hmem₁), fun q => ?_⟩
    · have hfirst : (reparent c).run t = .ok () t₂ := by rw [reparent, run_bind_ok hrun₁, hrun₂]
      rw [each, run_bind_ok hfirst, hrun]
    · rw [hby, hby₂, hby₁]
      cases t.byPid q with
      | none => rfl
      | some r => exact congrArg some (reparented_cons c children q r)

/-- What `kill` does to the processes that wait. -/
def woken (pid : Nat) (waiting : List Nat) (q : Nat) (p : Process) : Process :=
  if q ∈ waiting then { p with status := .active, wokeUpBy := pid } else p

theorem woken_of_not_mem {waiting : List Nat} {q : Nat} (h : q ∉ waiting) :
    woken pid waiting q = id := by
  funext p
  simp [woken, h]

/-- All the processes that wait are woken, and the exit code is stored where they asked for it. -/
theorem run_each_wakeWaiting (pid : Nat) (errCode : Int) (entries : List WaitEntry)
    (hwait : ∀ e ∈ entries, ∃ p, t.byPid e.processWaiting = some p ∧ p.status = .childWait)
    (hnodup : (entries.map (·.processWaiting)).Nodup) :
    ∃ t', (each (wakeWaiting pid errCode) entries).run t = .ok () t' ∧
      (∀ q, t'.byPid q = (t.byPid q).map (woken pid (entries.map (·.processWaiting)) q)) ∧
      (∀ e ∈ entries, ∀ p, t.byPid e.processWaiting = some p →
        t'.memory p.waitstatusPhys = errCode) ∧
      ∀ a, t'.memory a = t.memory a ∨ t'.memory a = errCode := by
  induction entries generalizing t with
  | nil =>
    refine ⟨t, rfl, fun q => ?_, by simp, fun a => .inl rfl⟩
    rw [List.map_nil, woken_of_not_mem List.not_mem_nil, Option.map_id, id]
  | cons e entries ih =>
    obtain ⟨p, hp, hstatus⟩ := hwait e List.mem_cons_self
    obtain ⟨hnew, hrest⟩ := List.nodup_cons.mp hnodup
    let t₀ : Table := { t with memory := Function.update t.memory p.waitstatusPhys errCode }
    obtain ⟨t₁, hrun₁, hmem₁, hby₁⟩ :=
      @run_update_map t₀ e.processWaiting p hp ({ · with wokeUpBy := pid })
    obtain ⟨t₂, hrun₂, hmem₂, hby₂⟩ := run_update_map ((hby₁ e.processWaiting).trans
      (congrArg _ hp)) ({ · with status := .active })
    have hby : ∀ q, t₂.byPid q = (t.byPid q).map (woken pid [e.processWaiting] q) := fun q => by
      rw [hby₂, hby₁]
      show ((t.byPid q).map _).map _ = _
      rw [Option.map_map]
      congr 1
      funext r
      by_cases hq : q = e.processWaiting <;> simp [woken, hq]
    have hmem : t₂.memory = Function.update t.memory p.waitstatusPhys errCode := hmem₂.trans hmem₁
    have hother : ∀ f ∈ entries, t₂.byPid f.processWaiting = t.byPid f.processWaiting := by
      intro f hf
      have hne : f.processWaiting ≠ e.processWaiting := fun heq =>
        hnew (List.mem_map.mpr ⟨f, hf, heq⟩)
      rw [hby, woken_of_not_mem (by simpa using hne), Option.map_id, id]
    obtain ⟨t', hrun, hby', hwritten, hkept⟩ := ih (t := t₂)
      (fun f hf => by
        rw [hother f hf]
        exact hwait f (List.mem_cons_of_mem e hf)) hrest
    refine ⟨t', ?_, fun q => ?_, fun f hf r hr => ?_, fun a => ?_⟩
    · have hfirst : (wakeWaiting pid errCode e).run t = .ok () t₂ := by
        rw [wakeWaiting, run_bind_ok (run_process hp), run_check_bind hstatus,
          wakeUp, run_bind_ok (run_process hp), run_modify_bind, run_bind_ok hrun₁, hrun₂]
      rw [each, run_bind_ok hfirst, hrun]
    · rw [hby', hby, Option.map_map]
      congr 1
      funext r
      by_cases hq : q = e.processWaiting
      · by_cases hmem : q ∈ entries.map (·.processWaiting) <;> simp_all [woken]
      · simp [woken, hq]
    · rcases List.mem_cons.mp hf with rfl | hf
      · cases hp.symm.trans hr
        rcases hkept p.waitstatusPhys with h | h
        · rw [h, hmem, Function.update_self]
        · exact h
      · exact hwritten f hf r (by rw [hother f hf, hr])
    · rcases hkept a with h | h
      · rw [h, hmem]
        by_cases ha : a = p.waitstatusPhys
        · simp [ha]
        · simp [ha]
      · exact .inr h

/-- What the end of the process `p` does to every process. -/
def afterKill (pid : Nat) (p : Process) (q : Nat) (r : Process) : Process :=
  woken pid (p.waitEntries.map (·.processWaiting)) q
    (reparented p.children q (if q = pid then { r with status := .zombie } else r))

/-- `kill` goes through when the children and the parents of the process exist and everybody who
waits for it is another process that waits. -/
theorem run_kill (errCode : Int) (hpid : pid ≠ 0) (hp : t.byPid pid = some p)
    (hinit : (t.byPid 0).isSome) (hchildren : ∀ c ∈ p.children, (t.byPid c).isSome)
    (hparent : (t.byPid p.parent).isSome) (hwait : ∀ e ∈ p.waitEntries, e.processWaiting ≠ pid ∧
      ∃ w, t.byPid e.processWaiting = some w ∧ w.status = .childWait)
    (hnodup : (p.waitEntries.map (·.processWaiting)).Nodup) :
    ∃ t', (kill pid errCode).run t = .ok () t' ∧
      (∀ q, t'.byPid q = (t.byPid q).map (afterKill pid p q)) ∧
      (∀ e ∈ p.waitEntries, ∀ w, t.byPid e.processWaiting = some w →
        t'.memory w.waitstatusPhys = errCode) ∧
      ∀ a, t'.memory a = t.memory a ∨ t'.memory a = errCode := by
  obtain ⟨t₁, hrun₁, hmem₁, hby₁⟩ := run_update_map hp ({ · with status := .zombie })
  obtain ⟨t₂, hrun₂, hmem₂, hby₂⟩ := run_each_reparent (t := t₁) p.children
    (fun c hc => by simpa [hby₁] using hchildren c hc) (by simpa [hby₁] using hinit)
  have hself₁ : t₁.byPid pid = some { p with status := .zombie } := by simp [hby₁, hp]
  have hself₂ := (hby₂ pid).trans (congrArg _ hself₁)
  have hlook : ∀ e ∈ p.waitEntries, ∀ w, t.byPid e.processWaiting = some w →
      t₂.byPid e.processWaiting = some (reparented p.children e.processWaiting w) := by
    intro e he w hw
    simp [hby₂, hby₁, hw, (hwait e he).1]
  obtain ⟨t', hrun₃, hby₃, hwritten, hkept⟩ :=
    run_each_wakeWaiting (t := t₂) pid errCode p.waitEntries
      (fun e he => by
        obtain ⟨_, w, hw, hstatus⟩ := hwait e he
        exact ⟨_, hlook e he w hw, hstatus⟩) hnodup
  refine ⟨t', ?_, fun q => ?_, fun e he w hw => ?_, fun a => ?_⟩
  · have hexists : (t.byPid pid).isSome = true := by simp [hp]
    have hparent₂ :
        (t₂.byPid (reparented p.children pid { p with status := .zombie }).parent).isSome
        = true := by
      simp only [reparented]
      split
      · simpa [hby₂, hby₁] using hinit
      · simpa [hby₂, hby₁] using hparent
    rw [kill, run_check_bind hpid, run_get_bind, run_check_bind hexists,
      run_bind_ok hrun₁, run_bind_ok (run_process hself₁), run_bind_ok hrun₂,
      run_bind_ok (run_process hself₂), run_get_bind, run_check_bind hparent₂]
    exact hrun₃
  · rw [hby₃, hby₂, hby₁, Option.map_map, Option.map_map]
    rfl
  · have := hwritten e he _ (hlook e he w hw)
    exact this
  · rw [← hmem₁, ← hmem₂]
    exact hkept a

/-! ## When `kill` goes through -/

/-- The process that a new process becomes a child of. -/
def cloneTarget (proc : Nat) (p : Process) (flags : UInt32) : Nat :=
  if flags &&& cloneParent ≠ 0 then p.parent else proc

/-- A new process takes a free pid and becomes the last child of its parent. -/
theorem run_clone {proc : Nat} {flags : UInt32} (hp : t.byPid proc = some p)
    (htarget : (t.byPid (cloneTarget proc p flags)).isSome) :
    ∃ pid tgid t', (clone proc flags).run t = .ok pid t' ∧ t'.memory = t.memory ∧
      t.byPid pid = none ∧ ∀ q, t'.byPid q =
        if q = pid then some { tgid := tgid, parent := cloneTarget proc p flags }
        else (t.byPid q).map fun r =>
          if q = cloneTarget proc p flags then
            { r with children := r.children ++ [pid] } else r := by
  let n := firstFree t.processes
  have hfree : t.byPid n = none := slot_firstFree t.processes
  let t₁ : Table := { t with processes := occupy t.processes n { tgid := n } }
  have hcreate : create.run t = .ok n t₁ := rfl
  have hby₁ : ∀ q, t₁.byPid q = if q = n then some { tgid := n } else t.byPid q :=
    slot_occupy t.processes { tgid := n }
  -- the new process after the flag for threads has been looked at
  obtain ⟨tgid, t₂, hthread, hmem₂, hby₂⟩ : ∃ tgid t₂,
      ((if flags &&& cloneThread ≠ 0 then update n ({ · with tgid := proc }) else pure ()) :
        TableAction Unit).run t₁ = .ok () t₂ ∧ t₂.memory = t.memory ∧
      ∀ q, t₂.byPid q = if q = n then some { tgid := tgid } else t.byPid q := by
    by_cases hflag : flags &&& cloneThread ≠ 0
    · obtain ⟨t₂, hrun, hmem, hby⟩ := run_update_map ((hby₁ n).trans (if_pos rfl))
        ({ · with tgid := proc })
      refine ⟨proc, t₂, by rw [if_pos hflag, hrun], hmem, fun q => ?_⟩
      rw [hby, hby₁]
      by_cases hq : q = n <;> simp [hq]
    · exact ⟨n, t₁, by rw [if_neg hflag]; rfl, rfl, hby₁⟩
  obtain ⟨target, htarget⟩ := Option.isSome_iff_exists.mp htarget
  have hne : cloneTarget proc p flags ≠ n := fun heq => by
    rw [heq, hfree] at htarget
    cases htarget
  obtain ⟨t₃, hrun₃, hmem₃, hby₃⟩ := run_update_map
    ((hby₂ _).trans ((if_neg hne).trans htarget)) fun q => { q with children := q.children ++ [n] }
  obtain ⟨t₄, hrun₄, hmem₄, hby₄⟩ := run_update_map ((hby₃ n).trans
    (congrArg _ ((hby₂ n).trans (if_pos rfl)))) ({ · with parent := cloneTarget proc p flags })
  refine ⟨n, tgid, t₄, ?_, hmem₄.trans (hmem₃.trans hmem₂), hfree, fun q => ?_⟩
  · rw [clone, run_bind_ok (run_process hp), run_bind_ok hcreate, run_bind_ok hthread]
    by_cases hflag : flags &&& cloneParent ≠ 0
    · rw [cloneTarget, if_pos hflag] at hrun₃ hrun₄
      rw [if_pos hflag, run_bind_ok hrun₃, run_bind_ok hrun₄]
      rfl
    · rw [cloneTarget, if_neg hflag] at hrun₃ hrun₄
      rw [if_neg hflag, run_bind_ok hrun₃, run_bind_ok hrun₄]
      rfl
  · rw [hby₄, hby₃, hby₂]
    by_cases hq : q = n
    · simp [hq, Ne.symm hne]
    · rw [if_neg hq, if_neg hq]
      cases t.byPid q <;> simp [hq]

theorem run_waitFor {current : Nat} (statusPhys : Nat) {c : Process} (hp : t.byPid pid = some p)
    (hc : t.byPid current = some c) :
    ∃ t', (waitFor current pid statusPhys).run t = .ok () t' ∧ t'.memory = t.memory ∧
      ∀ q, t'.byPid q = (t.byPid q).map fun r =>
        { r with
          waitEntries := if q = pid then r.waitEntries ++ [⟨current, statusPhys⟩] else r.waitEntries
          waitstatusPhys := if q = current then statusPhys else r.waitstatusPhys
          status := if q = current then .childWait else r.status } := by
  obtain ⟨t₁, hrun₁, hmem₁, hby₁⟩ := run_update_map hp
    fun p => { p with waitEntries := p.waitEntries ++ [⟨current, statusPhys⟩] }
  obtain ⟨t₂, hrun₂, hmem₂, hby₂⟩ := run_update_map ((hby₁ current).trans (congrArg _ hc))
    ({ · with waitstatusPhys := statusPhys })
  obtain ⟨t₃, hrun₃, hmem₃, hby₃⟩ := run_update_map ((hby₂ current).trans (congrArg _
    ((hby₁ current).trans (congrArg _ hc)))) ({ · with status := .childWait })
  refine ⟨t₃, ?_, hmem₃.trans (hmem₂.trans hmem₁), fun q => ?_⟩
  · have hexists : (t.byPid pid).isSome = true := by simp [hp]
    rw [waitFor, run_get_bind, run_check_bind hexists, run_bind_ok hrun₁, run_bind_ok hrun₂, hrun₃]
  · rw [hby₃, hby₂, hby₁, Option.map_map, Option.map_map]
    congr 1
    funext r
    rcases eq_or_ne q pid with rfl | hq <;> rcases eq_or_ne q current with rfl | hqc <;> simp [*]

theorem run_releaseZombie {current : Nat} {q : Process} (hcurrent : current ≠ pid)
    (hp : t.byPid pid = some p) (hzombie : p.status = .zombie)
    (hq : t.byPid p.parent = some q) (hmem : pid ∈ q.children) :
    ∃ t', (releaseZombie current pid).run t = .ok () t' ∧ t'.memory = t.memory ∧
      ∀ x, t'.byPid x = if x = pid then none else (t.byPid x).map fun r =>
        if x = p.parent then { r with children := r.children.filter (· ≠ pid) } else r := by
  refine ⟨{ t.setProcess p.parent { q with children := q.children.filter (· ≠ pid) } with
    processes := (t.setProcess p.parent
      { q with children := q.children.filter (· ≠ pid) }).processes.set pid none }, ?_, rfl,
    fun x => ?_⟩
  · rw [releaseZombie, run_check_bind hcurrent, run_bind_ok (run_process hp),
      run_check_bind hzombie, run_get_bind, hq]
    rw [run_check_bind hmem]
    rfl
  · show slot _ x = _
    rw [slot_set_none]
    by_cases hx : x = pid
    · simp [hx]
    · rw [if_neg hx, if_neg hx]
      refine (Table.byPid_setProcess hq _ x).trans ?_
      by_cases hxp : x = p.parent
      · simp [hxp, hq]
      · simp [hxp]

end

end LudOS.Tasking.ProcessTable
