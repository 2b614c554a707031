import LudOS.Lib.Slots
import LudOS.Lib.Transition
import LudOS.Utils.DeltaQueue
import LudOS.Utils.Span

/-!
# Processes, semaphores and the sleep queue

The model of `tasking/process.cpp`, `tasking/semaphore.cpp`, `tasking/scheduler.cpp` and
`syscalls/Linux/time/sleep.cpp` as far as they decide which process is blocked. A `World` is the
process table, the semaphores and the sleep queue; an `Op` is one section of code that runs
without interruption, and `Step` takes one of them.

A process that blocks leaves its kernel stack inside the call and goes on with `resume` once its
status is `active` again. Three fields of the model are not in the source: `inside` is that place
in the code, and a `Timer` carries an `id` so that `blockedOn` can name the timer a process waits
for. `fired` records what each sleep-queue callback found.
-/

namespace LudOS.Tasking

variable {pid sem : Nat}

open Lib

/-! ## State -/

/-- `Process::status`. -/
inductive Status where
  | active
  | paused
  | childWait
  | ioWait
  | sleeping
  | zombie
  deriving DecidableEq, Repr

/-- The call a process is blocked inside of. -/
inductive Blocking where
  | wait (sem : Nat)
  | sleep
  deriving DecidableEq, Repr

/-- `Process`. The timeout action is always the entry point of a semaphore, so the semaphore is
all it consists of. -/
structure Process where
  status : Status := .active
  timeoutAction : Option Nat := none
  parent : Nat := 0
  children : List Nat := []
  waitEntries : List Nat := []
  inside : Option Blocking := none
  blockedOn : Option Nat := none
  deriving DecidableEq, Repr

/-- `Semaphore::wait_entry`, the process given by its pid. -/
structure WaitEntry where
  proc : Nat
  timedOut : Bool := false
  deriving DecidableEq, Repr

/-- `Semaphore`. -/
structure Semaphore where
  counter : Int32 := 0
  waitList : List WaitEntry := []
  deriving DecidableEq, Repr

/-- An element of the sleep queue: the pid, and which of its timers it is. -/
structure Timer where
  pid : Nat
  id : Nat
  deriving DecidableEq, Repr

/-- What a sleep-queue callback found when it started: the status of the process, if there was
one, and the timer the process was blocked on. -/
structure Fired where
  timer : Timer
  status : Option Status
  blockedOn : Option Nat
  deriving DecidableEq, Repr

/-- The tasking state of the kernel: `m_processes`, the semaphores by address, and the sleep queue
with its clock. -/
structure World where
  processes : List (Option Process) := []
  semaphores : Nat → Semaphore := fun _ => {}
  sleepQueue : DeltaQueue Timer := []
  elapsedTicks : Nat := 0
  nextTimer : Nat := 0
  fired : List Fired := []

/-- The result codes of the calls. -/
inductive Code where
  | eok
  | etimedout
  | efault
  | einval
  deriving DecidableEq, Repr

/-- What a section of code ends with: the call returned, it blocked, `try_wait` answered, or there
is nothing to report. -/
inductive Outcome where
  | returned (code : Code)
  | blocked
  | tried (acquired : Bool)
  | done
  deriving DecidableEq, Repr

namespace World

/-- `Process::by_pid`. -/
def byPid (w : World) (pid : Nat) : Option Process := w.processes[pid]?.join

/-- The world with one process replaced. -/
def setProcess (w : World) (pid : Nat) (p : Process) : World :=
  { w with processes := w.processes.set pid (some p) }

/-- The world with the slot of one process emptied. -/
def clearProcess (w : World) (pid : Nat) : World :=
  { w with processes := w.processes.set pid none }

/-- The world with one semaphore replaced. -/
def setSemaphore (w : World) (sem : Nat) (s : Semaphore) : World :=
  { w with semaphores := Function.update w.semaphores sem s }

/-- `sleep_queue.insert(pid, ticks)`. -/
def startTimer (w : World) (pid ticks : Nat) : World :=
  { w with
    sleepQueue := DeltaQueue.insert ⟨pid, w.nextTimer⟩ ticks w.sleepQueue
    nextTimer := w.nextTimer + 1 }

/-- A process has its slot inside the table. -/
theorem lt_length_of_byPid {w : World} {p : Process} (h : w.byPid pid = some p) :
    pid < w.processes.length := lt_length_of_slot h

/-- A process that is replaced is found under its pid, and all others as before. -/
theorem byPid_setProcess {w : World} {p : Process} (h : w.byPid pid = some p)
    (p' : Process) (q : Nat) :
    (w.setProcess pid p').byPid q = if q = pid then some p' else w.byPid q :=
  slot_set_some h p' q

section

variable (w : World)

include w

/-- Replacing a process leaves the others alone. Here the slot may also be empty. -/
theorem byPid_setProcess_other {q : Nat} (p : Process) (h : q ≠ pid) :
    (w.setProcess pid p).byPid q = w.byPid q := slot_set_other _ h

/-- Releasing a process leaves the others alone. -/
theorem byPid_clearProcess_other {q : Nat} (h : q ≠ pid) :
    (w.clearProcess pid).byPid q = w.byPid q := slot_set_other _ h

-- What each update leaves alone.

@[simp] theorem byPid_setSemaphore (sem : Nat) (s : Semaphore) (q : Nat) :
    (w.setSemaphore sem s).byPid q = w.byPid q := rfl

@[simp] theorem byPid_startTimer (pid ticks q : Nat) :
    (w.startTimer pid ticks).byPid q = w.byPid q := rfl

@[simp] theorem semaphores_setProcess (pid : Nat) (p : Process) :
    (w.setProcess pid p).semaphores = w.semaphores := rfl

@[simp] theorem semaphores_startTimer (pid ticks : Nat) :
    (w.startTimer pid ticks).semaphores = w.semaphores := rfl

@[simp] theorem semaphores_setSemaphore (sem : Nat) (s : Semaphore) :
    (w.setSemaphore sem s).semaphores = Function.update w.semaphores sem s := rfl

@[simp] theorem length_processes_setProcess (pid : Nat) (p : Process) :
    (w.setProcess pid p).processes.length = w.processes.length := List.length_set

end

end World

/-- The process behind a pid or a process pointer. -/
def process (pid : Nat) : EStateM Fault World Process := do
  match (← get).byPid pid with
  | some p => pure p
  | none => throw .invalidPointer

variable {w' : World}

/-- A pointer to a process is followed without a change, and only to a process that exists. -/
theorem process_eq_ok {p : Process} {w : World} :
    (process pid).run w = .ok p w' ↔ w.byPid pid = some p ∧ w = w' := by
  unfold process
  rw [run_get_bind]
  cases h : w.byPid pid with
  | none =>
    simp only [reduceCtorEq, false_and, iff_false]
    intro hrun
    cases hrun
  | some q => simp

/-! ## Semaphores -/

/-- The blocking branch of `Semaphore::wait`: the process joins the list, gets the status `IOWait`
and, with a timeout, a timeout action and a timer. -/
def blockOn (w : World) (pid : Nat) (p : Process) (sem : Nat) (timeoutTicks : Option Nat) : World :=
  let s := w.semaphores sem
  let p' : Process :=
    { p with
      status := .ioWait
      inside := some (.wait sem)
      timeoutAction := if timeoutTicks.isSome then some sem else p.timeoutAction
      blockedOn := timeoutTicks.map fun _ => w.nextTimer }
  let w' := (w.setSemaphore sem ⟨s.counter - 1, s.waitList ++ [⟨pid, false⟩]⟩).setProcess pid p'
  match timeoutTicks with
  | none => w'
  | some ticks => w'.startTimer pid ticks

/-- `Semaphore::wait` up to its end, or up to the call of the scheduler when it has to block. -/
def wait (pid sem : Nat) (timeoutTicks : Option Nat) : EStateM Fault World Outcome := do
  let p ← process pid
  let w ← get
  let s := w.semaphores sem
  if s.counter ≤ 0 then
    set (blockOn w pid p sem timeoutTicks)
    pure .blocked
  else
    set (w.setSemaphore sem { s with counter := s.counter - 1 })
    pure (.returned .eok)

/-- The part of `Semaphore::wait` after the scheduler comes back, or of `sys_nanosleep`. -/
def resume (pid : Nat) : EStateM Fault World Outcome := do
  let p ← process pid
  let w ← get
  let w' := w.setProcess pid { p with inside := none }
  match p.inside with
  | none => pure .done
  | some .sleep =>
    set w'
    pure (.returned .eok)
  | some (.wait sem) =>
    let s := w.semaphores sem
    match s.waitList.find? (·.proc = pid) with
    | none => throw .invalidPointer
    | some entry =>
      set (w'.setSemaphore sem { s with waitList := s.waitList.eraseP (·.proc = pid) })
      pure (.returned (if entry.timedOut then .etimedout else .eok))

/-- `Semaphore::try_wait`. -/
def tryWait (sem : Nat) : EStateM Fault World Outcome := do
  let w ← get
  let s := w.semaphores sem
  if s.counter ≤ 0 then pure (.tried false)
  else
    set (w.setSemaphore sem { s with counter := s.counter - 1 })
    pure (.tried true)

/-- `Semaphore::post`. The woken entry stays at the front of the list. -/
def post (sem : Nat) : EStateM Fault World Outcome := do
  let w ← get
  let s := w.semaphores sem
  let w := w.setSemaphore sem { s with counter := s.counter + 1 }
  match s.waitList with
  | [] =>
    set w
    pure .done
  | entry :: _ =>
    let p ← process entry.proc
    set (w.setProcess entry.proc { p with status := .active, blockedOn := none })
    pure .done

/-- The search of `Semaphore::remove_timed_out_process`: it follows the process pointer of every
entry up to the one it looks for. -/
def markTimedOut (w : World) (pid : Nat) : List WaitEntry → Except Fault (List WaitEntry)
  | [] => .error .assertion
  | entry :: rest =>
    if (w.byPid entry.proc).isNone then .error .invalidPointer
    else if entry.proc = pid then .ok ({ entry with timedOut := true } :: rest)
    else (entry :: ·) <$> markTimedOut w pid rest

/-- `Semaphore::remove_timed_out_process`. -/
def removeTimedOutProcess (sem pid : Nat) : EStateM Fault World Unit := do
  let w ← get
  let s := w.semaphores sem
  match markTimedOut w pid s.waitList with
  | .error e => throw e
  | .ok waitList => set (w.setSemaphore sem { s with waitList := waitList })

/-! ## The sleep queue -/

/-- The two cases of the callback: a process in `IOWait` runs its timeout action, any other one has
to be sleeping. -/
def runTimeoutAction (pid : Nat) (p : Process) : EStateM Fault World Process :=
  if p.status = .ioWait then
    match p.timeoutAction with
    | none => pure p
    | some sem => do
      removeTimedOutProcess sem pid
      pure { p with timeoutAction := none }
  else do
    check .assertion (p.status = .sleeping)
    pure p

/-- The pop callback of `sleep_queue`. -/
def sleepCallback (t : Timer) : EStateM Fault World Unit := do
  let w ← get
  let found := w.byPid t.pid
  let record : Fired := ⟨t, found.map (·.status), found.bind (·.blockedOn)⟩
  set { w with fired := w.fired ++ [record] }
  match found with
  | none => throw .assertion
  | some p =>
    let p ← runTimeoutAction t.pid p
    modify (·.setProcess t.pid { p with status := .active, blockedOn := none })

/-- `update_sleep_queue` at the given value of `Time::total_ticks`. -/
def updateSleepQueue (currentTicks : Nat) : EStateM Fault World Outcome := do
  let w ← get
  let tickDuration := (currentTicks + (2 ^ 64 - w.elapsedTicks)) % 2 ^ 64
  set { w with elapsedTicks := currentTicks }
  let queue ← DeltaQueue.decrease sleepCallback w.sleepQueue tickDuration
  modify ({ · with sleepQueue := queue })
  pure .done

/-- `struct timespec`. -/
structure Timespec where
  sec : Int
  nsec : Int
  deriving DecidableEq, Repr

/-- `sys_nanosleep` up to the call of the scheduler. A pointer that fails its check is `none` or
`false`. -/
def sysNanosleep (pid clockSpeed : Nat) (req : Option Timespec) (remOk : Bool) :
    EStateM Fault World Outcome :=
  match req with
  | none => pure (.returned .efault)
  | some t =>
    if !remOk then pure (.returned .efault)
    else if t.nsec < 0 ∨ 999999999 < t.nsec ∨ t.sec < 0 then pure (.returned .einval)
    else do
      let p ← process pid
      let w ← get
      let ticks :=
        (t.nsec.toNat / 1000 * clockSpeed + t.sec.toNat * (clockSpeed * 1000000)) % 2 ^ 64
      let p := { p with status := .sleeping, inside := some .sleep, blockedOn := some w.nextTimer }
      set ((w.setProcess pid p).startTimer pid ticks)
      pure .blocked

/-! ## Killing and releasing -/

/-- One child of a killed process is handed to the init process. -/
def reparent (child : Nat) : EStateM Fault World Unit := do
  let c ← process child
  modify (·.setProcess child { c with parent := 0 })
  let init ← process 0
  modify (·.setProcess 0 { init with children := init.children ++ [child] })

/-- One process that waits for a killed process is woken up. -/
def wakeUp (waiting : Nat) : EStateM Fault World Unit := do
  let p ← process waiting
  check .assertion (p.status = .childWait)
  modify (·.setProcess waiting { p with status := .active })

/-- `Process::kill`. The `SIGCHLD` it raises in the parent is ignored by default. -/
def kill (pid : Nat) : EStateM Fault World Outcome := do
  check .panic (pid ≠ 0)
  check .assertion (((← get).byPid pid).isSome)
  let p ← process pid
  modify (·.setProcess pid { p with status := .zombie, blockedOn := none })
  each reparent p.children
  check .assertion (((← get).byPid p.parent).isSome)
  each wakeUp p.waitEntries
  pure .done

/-- `Process::release_zombie`, called while the process `current` runs. -/
def releaseZombie (current pid : Nat) : EStateM Fault World Outcome := do
  check .assertion (current ≠ pid)
  let p ← process pid
  check .assertion (p.status = .zombie)
  match (← get).byPid p.parent with
  | none => throw .assertion
  | some parent =>
    check .assertion (pid ∈ parent.children)
    modify (·.setProcess p.parent { parent with children := parent.children.filter (· ≠ pid) })
    modify (·.clearProcess pid)
    pure .done

/-! ## What the semaphore sections do -/

/-- A process that blocks takes one from the counter and joins the list at its end. -/
theorem blockOn_semaphores (w : World) (pid : Nat) (p : Process) (sem : Nat)
    (timeoutTicks : Option Nat) :
    (blockOn w pid p sem timeoutTicks).semaphores = Function.update w.semaphores sem
      ⟨(w.semaphores sem).counter - 1, (w.semaphores sem).waitList ++ [⟨pid, false⟩]⟩ := by
  cases timeoutTicks <;> rfl

/-- It is in `IOWait`, inside the call, and only with a timeout does it get a timeout action and a
timer. No other process changes. -/
theorem blockOn_byPid {w : World} {p : Process} (h : w.byPid pid = some p) (sem : Nat)
    (timeoutTicks : Option Nat) (q : Nat) :
    (blockOn w pid p sem timeoutTicks).byPid q =
      if q = pid then
        some { p with
          status := .ioWait
          inside := some (.wait sem)
          timeoutAction := if timeoutTicks.isSome then some sem else p.timeoutAction
          blockedOn := timeoutTicks.map fun _ => w.nextTimer }
      else w.byPid q := by
  cases timeoutTicks <;> exact World.byPid_setProcess h _ q

variable {out : Outcome}

/-- `wait` takes one from the counter. It blocks if the counter was not positive, and returns at
once otherwise. -/
theorem wait_ok {timeoutTicks : Option Nat} {w : World}
    (h : (wait pid sem timeoutTicks).run w = .ok out w') : ∃ p, w.byPid pid = some p ∧
      (((w.semaphores sem).counter ≤ 0 ∧ out = .blocked ∧
          w' = blockOn w pid p sem timeoutTicks) ∨
        (¬ (w.semaphores sem).counter ≤ 0 ∧ out = .returned .eok ∧
          w' = w.setSemaphore sem
            ⟨(w.semaphores sem).counter - 1, (w.semaphores sem).waitList⟩)) := by
  simp only [wait, run_bind_eq_ok, process_eq_ok] at h
  obtain ⟨p, _, ⟨hp, rfl⟩, _, _, hget, h⟩ := h
  cases hget
  refine ⟨p, hp, ?_⟩
  split at h
  case isTrue hle =>
    cases h
    exact Or.inl ⟨hle, rfl, rfl⟩
  case isFalse hgt =>
    cases h
    exact Or.inr ⟨hgt, rfl, rfl⟩

/-- `try_wait` takes one from a positive counter, and nothing from another one. -/
theorem tryWait_ok {w : World} (h : (tryWait sem).run w = .ok out w') :
    ((w.semaphores sem).counter ≤ 0 ∧ out = .tried false ∧ w' = w) ∨
      (¬ (w.semaphores sem).counter ≤ 0 ∧ out = .tried true ∧
        w' = w.setSemaphore sem
          ⟨(w.semaphores sem).counter - 1, (w.semaphores sem).waitList⟩) := by
  simp only [tryWait, run_bind_eq_ok] at h
  obtain ⟨_, _, hget, h⟩ := h
  cases hget
  split at h
  case isTrue hle =>
    cases h
    exact Or.inl ⟨hle, rfl, rfl⟩
  case isFalse hgt =>
    cases h
    exact Or.inr ⟨hgt, rfl, rfl⟩

/-- The counter goes up, and the process of the front entry becomes active. -/
theorem post_ok {w : World} (h : (post sem).run w = .ok out w') :
    out = .done ∧ (((w.semaphores sem).waitList = [] ∧
          w' = w.setSemaphore sem ⟨(w.semaphores sem).counter + 1, []⟩) ∨
        ∃ entry rest p, (w.semaphores sem).waitList = entry :: rest ∧
          w.byPid entry.proc = some p ∧
          w' = (w.setSemaphore sem ⟨(w.semaphores sem).counter + 1, entry :: rest⟩).setProcess
            entry.proc { p with status := .active, blockedOn := none }) := by
  simp only [post, run_bind_eq_ok] at h
  obtain ⟨_, _, hget, h⟩ := h
  cases hget
  split at h
  case h_1 hnil =>
    cases h
    exact ⟨rfl, Or.inl ⟨hnil, by rw [hnil]⟩⟩
  case h_2 entry rest hcons =>
    simp only [run_bind_eq_ok, process_eq_ok] at h
    obtain ⟨p, _, ⟨hp, rfl⟩, _, _, hset, hpure⟩ := h
    cases hset
    cases hpure
    exact ⟨rfl, Or.inr ⟨entry, rest, p, hcons, hp, by rw [hcons]⟩⟩

/-- A process that resumes leaves its blocking call, and its entry the list. -/
theorem resume_ok {w : World} (h : (resume pid).run w = .ok out w') :
    ∃ p, w.byPid pid = some p ∧ ((p.inside = none ∧ w' = w) ∨
        (p.inside = some .sleep ∧ out = .returned .eok ∧
          w' = w.setProcess pid { p with inside := none }) ∨
        ∃ sem entry, p.inside = some (.wait sem) ∧
          (w.semaphores sem).waitList.find? (·.proc = pid) = some entry ∧
          out = .returned (if entry.timedOut then .etimedout else .eok) ∧
          w' = (w.setProcess pid { p with inside := none }).setSemaphore sem
            ⟨(w.semaphores sem).counter,
              (w.semaphores sem).waitList.eraseP (·.proc = pid)⟩) := by
  simp only [resume, run_bind_eq_ok, process_eq_ok] at h
  obtain ⟨p, _, ⟨hp, rfl⟩, _, _, hget, h⟩ := h
  cases hget
  refine ⟨p, hp, ?_⟩
  split at h
  case h_1 hnone =>
    cases h
    exact Or.inl ⟨hnone, rfl⟩
  case h_2 hsleep =>
    cases h
    exact Or.inr (Or.inl ⟨hsleep, rfl, rfl⟩)
  case h_3 sem hwait =>
    split at h
    case h_1 => cases h
    case h_2 entry hfind =>
      cases h
      exact Or.inr (Or.inr ⟨sem, entry, hwait, hfind, rfl, rfl⟩)

/-! ## Steps -/

/-- A section of code that runs without interruption. -/
inductive Op where
  | wait (pid sem : Nat) (timeoutTicks : Option Nat)
  | tryWait (pid sem : Nat)
  | post (sem : Nat)
  | resume (pid : Nat)
  | nanosleep (pid clockSpeed : Nat) (req : Option Timespec) (remOk : Bool)
  | kill (pid : Nat)
  | releaseZombie (current pid : Nat)
  | updateSleepQueue (currentTicks : Nat)

/-- Run one section. -/
def exec : Op → EStateM Fault World Outcome
  | .wait pid sem timeoutTicks => wait pid sem timeoutTicks
  | .tryWait _ sem => tryWait sem
  | .post sem => post sem
  | .resume pid => resume pid
  | .nanosleep pid clockSpeed req remOk => sysNanosleep pid clockSpeed req remOk
  | .kill pid => kill pid
  | .releaseZombie current pid => releaseZombie current pid
  | .updateSleepQueue currentTicks => updateSleepQueue currentTicks

/-- The process runs and is not inside a blocking call. -/
def Ready (w : World) (pid : Nat) : Prop :=
  ∃ p, w.byPid pid = some p ∧ p.status = .active ∧ p.inside = none

/-- When a section can run: a process that starts a call is ready, one that resumes was made
active inside of one, and the clock does not go back. -/
def Enabled (w : World) : Op → Prop
  | .wait pid _ _ | .tryWait pid _ | .nanosleep pid _ _ _ => Ready w pid
  | .resume pid => ∃ p, w.byPid pid = some p ∧ p.status = .active ∧ p.inside ≠ none
  | .updateSleepQueue currentTicks => w.elapsedTicks ≤ currentTicks
  | .post _ | .kill _ | .releaseZombie _ _ => True

/-- A section that can run and completes without a fault. -/
def Step (w : World) (label : Op × Outcome) (w' : World) : Prop :=
  Enabled w label.1 ∧ (exec label.1).run w = .ok label.2 w'

end LudOS.Tasking
