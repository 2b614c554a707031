import LudOS.Tasking.ProcessTree

/-!
# Waiting for a child

A child exits, its parent calls `sys_waitpid` for it once, and the scheduler deletes zombies in
between whenever it likes. When the call comes first, the parent blocks, the exit stores the code
and wakes it, and the call returns the pid of the child. When the exit comes first, the code is
lost: `sys_waitpid` answers `ECHILD` for a zombie as for a process that is gone, and `Process` has
no field that would keep the code.
-/

namespace LudOS.Tasking.ProcessTable

open Lib

/-- What happens to a child, its parent and the table. -/
inductive Event where
  | exit
  | waitpid
  | reap (current : Nat)
  deriving DecidableEq, Repr

/-- One event. The value is how far the call of the parent has come, once it has been made. -/
def runEvent (parent child statusPhys : Nat) (errCode : Int) (call : Option Waited) :
    Event → TableAction (Option Waited)
  | .exit => do
    kill child errCode
    pure call
  | .waitpid => do
    let call ← sysWaitpid parent child (some statusPhys)
    pure (some call)
  | .reap current => do
    deleteZombieProcesses current
    pure call

/-- One event after the other. -/
def runEvents (parent child statusPhys : Nat) (errCode : Int) :
    Option Waited → List Event → TableAction (Option Waited)
  | call, [] => pure call
  | call, e :: es => do
    let call ← runEvent parent child statusPhys errCode call e
    runEvents parent child statusPhys errCode call es

/-- The parent goes on, if it was blocked and is active again. -/
def goOn (parent statusPhys : Nat) : Option Waited → TableAction (Option Waited)
  | some (.blocked remaining) => do
    let p ← process parent
    if p.status = .active then do
      let call ← waitNext parent statusPhys remaining
      pure (some call)
    else pure (some (.blocked remaining))
  | call => pure call

/-- In the end the call has returned the pid of the child, and the exit code has been stored. -/
def Delivered (t : Table) (parent child statusPhys : Nat) (errCode : Int) (call : Option Waited)
    (events : List Event) : Prop :=
  ∃ call' t₁ t₂, (runEvents parent child statusPhys errCode call events).run t = .ok call' t₁ ∧
    (goOn parent statusPhys call').run t₁ = .ok (some (.returned child)) t₂ ∧
    t₂.memory statusPhys = errCode

/-- The call of the parent comes before the exit of the child. -/
def waitsFirst : List Event → Bool
  | [] => false
  | .waitpid :: _ => true
  | .exit :: _ => false
  | .reap _ :: events => waitsFirst events

section

variable {t t' : Table} {events : List Event} {call : Option Waited}

/-! ## Deleting zombies -/

/-- Zombies may be gone, live processes have lost children at most. -/
structure Reaped (t t' : Table) : Prop where
  memory : t'.memory = t.memory
  alive : ∀ q r, t.byPid q = some r → r.status ≠ .zombie →
    ∃ children, t'.byPid q = some { r with children := children }
  old : ∀ q r', t'.byPid q = some r' → ∃ r, t.byPid q = some r ∧ r'.status = r.status

theorem Reaped.refl (t : Table) : Reaped t t :=
  ⟨rfl, fun _ r hr _ => ⟨r.children, hr⟩, fun _ r hr => ⟨r, hr, rfl⟩⟩

theorem Reaped.trans {t'' : Table} (h : Reaped t t') (h' : Reaped t' t'') : Reaped t t'' := by
  refine ⟨h'.memory.trans h.memory, fun q r hr hlive => ?_, fun q r'' hr'' => ?_⟩
  · obtain ⟨_, hr'⟩ := h.alive q r hr hlive
    obtain ⟨children, hr''⟩ := h'.alive q _ hr' hlive
    exact ⟨children, hr''⟩
  · obtain ⟨r', hr', hstatus'⟩ := h'.old q r'' hr''
    obtain ⟨r, hr, hstatus⟩ := h.old q r' hr'
    exact ⟨r, hr, hstatus'.trans hstatus⟩

theorem Released.reaped {pid parent : Nat} (h : Released t pid parent t')
    (hmem : t'.memory = t.memory) : Reaped t t' := by
  refine ⟨hmem, fun q r hr hlive => ⟨_, h.old hr (h.ne_of_alive hr hlive)⟩, fun q r' hr' => ?_⟩
  obtain ⟨_, r, hr, rfl⟩ := h.cases hr'
  exact ⟨r, hr, rfl⟩

/-- `delete_zombie_processes` goes through on every tree. -/
theorem deleteZombieProcesses_ok (ht : Tree t) (current : Nat) :
    ∃ t', (deleteZombieProcesses current).run t = .ok () t' ∧ Tree t' ∧ Reaped t t' ∧
      (Consistent t → Consistent t') := by
  refine each_invariant (fun s => Tree s ∧ Reaped t s ∧ (Consistent t → Consistent s))
    (fun pid _ s ⟨hs, hreaped, hcons⟩ => ?_) ⟨ht, Reaped.refl t, id⟩
  rw [deleteIfZombie, run_get_bind]
  cases hp : s.byPid pid with
  | none => exact ⟨s, rfl, hs, hreaped, hcons⟩
  | some p =>
    by_cases hzombie : p.status = .zombie ∧ pid ≠ current
    · obtain ⟨s', hrun, hreleased, hmem⟩ :=
        releaseZombie_ok hs (Ne.symm hzombie.2) hp hzombie.1
      refine ⟨s', ?_, hreleased.tree hs, hreaped.trans (hreleased.reaped hmem), fun h => ?_⟩
      · simp only [hzombie, ne_eq, not_false_eq_true, and_self, if_true, hrun]
      · exact hreleased.consistent (hcons h)
    · refine ⟨s, ?_, hs, hreaped, hcons⟩
      simp only [hzombie, if_false]
      rfl

/-! ## The phases of a run -/

variable {parent child statusPhys : Nat} {errCode : Int}

/-- The child lives and the parent has not called yet. -/
structure Started (t : Table) (parent child : Nat) : Prop where
  consistent : Consistent t
  parentOk : ∃ p, t.byPid parent = some p ∧ p.status = .active
  childOk : ∃ c, t.byPid child = some c ∧ c.status ≠ .zombie ∧ c.parent = parent

/-- The parent waits for the child. -/
structure Blocked (t : Table) (parent child statusPhys : Nat) : Prop where
  consistent : Consistent t
  parentOk : ∃ p, t.byPid parent = some p ∧ p.status ≠ .zombie ∧ p.waitstatusPhys = statusPhys
  childOk : ∃ c, t.byPid child = some c ∧ c.status ≠ .zombie ∧
    ∃ e ∈ c.waitEntries, e.processWaiting = parent

/-- The child has ended the wait of the parent. -/
structure Woken (t : Table) (parent child statusPhys : Nat) (errCode : Int) : Prop where
  tree : Tree t
  parentOk : ∃ p, t.byPid parent = some p ∧ p.status = .active ∧ p.wokeUpBy = child
  stored : t.memory statusPhys = errCode

/-- The child has exited and nobody waited. -/
structure Missed (t : Table) (parent child : Nat) : Prop where
  tree : Tree t
  parentOk : t.Live parent
  childOk : ∀ c, t.byPid child = some c → c.status = .zombie

theorem Started.reap (h : Started t parent child) (hreaped : Reaped t t')
    (hcons : Consistent t → Consistent t') : Started t' parent child := by
  obtain ⟨p, hp, hactive⟩ := h.parentOk
  obtain ⟨c, hc, hlive, hparent⟩ := h.childOk
  obtain ⟨_, hp'⟩ := hreaped.alive parent p hp (by simp [hactive])
  obtain ⟨_, hc'⟩ := hreaped.alive child c hc hlive
  exact ⟨hcons h.consistent, ⟨_, hp', hactive⟩, ⟨_, hc', hlive, hparent⟩⟩

theorem Blocked.reap (h : Blocked t parent child statusPhys) (hreaped : Reaped t t')
    (hcons : Consistent t → Consistent t') : Blocked t' parent child statusPhys := by
  obtain ⟨p, hp, hplive, hstatus⟩ := h.parentOk
  obtain ⟨c, hc, hlive, hentry⟩ := h.childOk
  obtain ⟨_, hp'⟩ := hreaped.alive parent p hp hplive
  obtain ⟨_, hc'⟩ := hreaped.alive child c hc hlive
  exact ⟨hcons h.consistent, ⟨_, hp', hplive, hstatus⟩, ⟨_, hc', hlive, hentry⟩⟩

theorem Woken.reap (h : Woken t parent child statusPhys errCode) (hreaped : Reaped t t')
    (ht' : Tree t') : Woken t' parent child statusPhys errCode := by
  obtain ⟨p, hp, hactive, hwoke⟩ := h.parentOk
  obtain ⟨_, hp'⟩ := hreaped.alive parent p hp (by simp [hactive])
  exact ⟨ht', ⟨_, hp', hactive, hwoke⟩, by rw [hreaped.memory, h.stored]⟩

theorem Missed.reap (h : Missed t parent child) (hreaped : Reaped t t') (ht' : Tree t') :
    Missed t' parent child := by
  obtain ⟨p, hp, hlive⟩ := h.parentOk
  obtain ⟨_, hp'⟩ := hreaped.alive parent p hp hlive
  refine ⟨ht', ⟨_, hp', hlive⟩, fun c' hc' => ?_⟩
  obtain ⟨c, hc, hstatus⟩ := hreaped.old child c' hc'
  rw [hstatus, h.childOk c hc]

/-- The call finds the child alive, and the parent blocks. -/
theorem Started.wait (h : Started t parent child) (hchild : child ≠ 0) (statusPhys : Nat) :
    ∃ t', (sysWaitpid parent child (some statusPhys)).run t = .ok (.blocked []) t' ∧
      Blocked t' parent child statusPhys := by
  obtain ⟨p, hp, hactive⟩ := h.parentOk
  obtain ⟨c, hc, hlive, hparent⟩ := h.childOk
  have hkid : child ∈ p.children := (h.consistent.tree.children parent p hp (by simp [hactive])
    child).mpr ⟨hchild, c, hc, hparent⟩
  obtain ⟨t', hrun, hcons, hstarts, _⟩ := waitFor_ok h.consistent hp hactive hkid statusPhys
  have hp' := (hstarts.byPid parent).trans (congrArg _ hp)
  have hc' := (hstarts.byPid child).trans (congrArg _ hc)
  refine ⟨t', ?_, hcons, ⟨_, hp', by simp, by simp⟩, ⟨_, hc', ?_, ?_⟩⟩
  · have hfound : ¬ ((c.parent ≠ parent ∧ c.tgid ≠ p.tgid) ∨ c.status = .zombie) := by
      simp [hparent, hlive]
    have hpos : (0 : Int) < child := by omega
    have hnot : (child : Int) ≠ -1 := by omega
    simp only [sysWaitpid, hnot, hpos, if_false, if_true, Int.toNat_natCast]
    rw [run_bind_ok (run_process hp), run_get_bind, hc]
    simp only [hfound, if_false]
    rw [run_bind_ok hrun]
    rfl
  · exact (hstarts.alive_iff hc).mpr hlive
  · exact ⟨⟨parent, statusPhys⟩, by simp, rfl⟩

/-- The child exits while the parent waits. -/
theorem Blocked.exit (h : Blocked t parent child statusPhys) (hchild : child ≠ 0) (errCode : Int) :
    ∃ t', (kill child errCode).run t = .ok () t' ∧ Woken t' parent child statusPhys errCode := by
  obtain ⟨p, hp, _, hstatus⟩ := h.parentOk
  obtain ⟨c, hc, hlive, e, he, heq⟩ := h.childOk
  obtain ⟨t', hrun, hkilled, hwritten, _⟩ := kill_ok h.consistent hchild hc hlive errCode
  have hmem : parent ∈ c.waitEntries.map (·.processWaiting) := List.mem_map.mpr ⟨e, he, heq⟩
  refine ⟨t', hrun, hkilled.tree h.consistent.tree hchild,
    ⟨_, (hkilled.byPid parent).trans (congrArg _ hp), ?_, ?_⟩, ?_⟩
  · rw [afterKill_status, if_pos hmem]
  · simp [afterKill, woken, hmem]
  · rw [← hstatus]
    exact hwritten e he p (by rw [heq, hp])

/-- The child exits with nobody waiting. -/
theorem Started.exit (h : Started t parent child) (hchild : child ≠ 0) (errCode : Int) :
    ∃ t', (kill child errCode).run t = .ok () t' ∧ Missed t' parent child := by
  obtain ⟨p, hp, hactive⟩ := h.parentOk
  obtain ⟨c, hc, hlive, hparent⟩ := h.childOk
  obtain ⟨t', hrun, hkilled, _⟩ := kill_ok h.consistent hchild hc hlive errCode
  have hne : parent ≠ child := hparent ▸ (h.consistent.tree.parents child c hc).2 hchild
  refine ⟨t', hrun, hkilled.tree h.consistent.tree hchild,
    hkilled.live_of_ne ⟨p, hp, by simp [hactive]⟩ hne, fun c' hc' => ?_⟩
  obtain ⟨c₀, hc₀, rfl⟩ := hkilled.cases hc'
  by_contra hstatus
  exact ((hkilled.alive_iff hc₀).mp hstatus).1 rfl

/-- The call comes too late. -/
theorem Missed.wait (h : Missed t parent child) (hchild : child ≠ 0) (statusPhys : Nat) :
    (sysWaitpid parent child (some statusPhys)).run t = .ok (.returned (-echild)) t := by
  obtain ⟨p, hp, _⟩ := h.parentOk
  have hpos : (0 : Int) < child := by omega
  have hnot : (child : Int) ≠ -1 := by omega
  simp only [sysWaitpid, hnot, hpos, if_false, if_true, Int.toNat_natCast]
  rw [run_bind_ok (run_process hp), run_get_bind]
  cases hc : t.byPid child with
  | none => rfl
  | some c =>
    simp only [h.childOk c hc, or_true, if_true]
    rfl

/-! ## Interleavings -/

/-- A deletion of zombies before everything else. -/
theorem delivered_reap {current : Nat} (hrun : (deleteZombieProcesses current).run t = .ok () t') :
    Delivered t parent child statusPhys errCode call (.reap current :: events) ↔
      Delivered t' parent child statusPhys errCode call events := by
  have hfirst : (runEvent parent child statusPhys errCode call (.reap current)).run t =
      .ok call t' := by
    rw [runEvent, run_bind_ok hrun]
    rfl
  simp only [Delivered, runEvents, run_bind_ok hfirst]

theorem delivered_exit (hrun : (kill child errCode).run t = .ok () t') :
    Delivered t parent child statusPhys errCode call (.exit :: events) ↔
      Delivered t' parent child statusPhys errCode call events := by
  have hfirst : (runEvent parent child statusPhys errCode call .exit).run t = .ok call t' := by
    rw [runEvent, run_bind_ok hrun]
    rfl
  simp only [Delivered, runEvents, run_bind_ok hfirst]

theorem delivered_wait {waited : Waited}
    (hrun : (sysWaitpid parent child (some statusPhys)).run t = .ok waited t') :
    Delivered t parent child statusPhys errCode call (.waitpid :: events) ↔
      Delivered t' parent child statusPhys errCode (some waited) events := by
  have hfirst : (runEvent parent child statusPhys errCode call .waitpid).run t =
      .ok (some waited) t' := by
    rw [runEvent, run_bind_ok hrun]
    rfl
  simp only [Delivered, runEvents, run_bind_ok hfirst]

/-- After the exit only zombies are deleted, and the parent returns with what it waited for. -/
theorem Woken.delivered (h : Woken t parent child statusPhys errCode) (events : List Event)
    (hexit : events.count .exit = 0) (hwait : events.count .waitpid = 0) :
    Delivered t parent child statusPhys errCode (some (.blocked [])) events := by
  induction events generalizing t with
  | nil =>
    obtain ⟨p, hp, hactive, hwoke⟩ := h.parentOk
    refine ⟨_, t, t, rfl, ?_, h.stored⟩
    rw [goOn, run_bind_ok (run_process hp), if_pos hactive, waitNext, bind_assoc,
      run_bind_ok (run_process hp), hwoke]
    rfl
  | cons e events ih =>
    cases e with
    | exit => simp at hexit
    | waitpid => simp at hwait
    | reap current =>
      obtain ⟨t', hrun, ht', hreaped, _⟩ := deleteZombieProcesses_ok h.tree current
      rw [delivered_reap hrun]
      exact ih (h.reap hreaped ht') (by simpa using hexit) (by simpa using hwait)

/-- While the parent waits, the exit is still to come. -/
theorem Blocked.delivered (h : Blocked t parent child statusPhys) (hchild : child ≠ 0)
    (errCode : Int) (events : List Event) (hexit : events.count .exit = 1)
    (hwait : events.count .waitpid = 0) :
    Delivered t parent child statusPhys errCode (some (.blocked [])) events := by
  induction events generalizing t with
  | nil => simp at hexit
  | cons e events ih =>
    cases e with
    | exit =>
      obtain ⟨t', hrun, hwoken⟩ := h.exit hchild errCode
      rw [delivered_exit hrun]
      exact hwoken.delivered events (by simpa using hexit) (by simpa using hwait)
    | waitpid => simp at hwait
    | reap current =>
      obtain ⟨t', hrun, _, hreaped, hcons⟩ := deleteZombieProcesses_ok h.consistent.tree current
      rw [delivered_reap hrun]
      exact ih (h.reap hreaped hcons) (by simpa using hexit) (by simpa using hwait)

/-- An answer that has been given does not change any more. -/
theorem not_delivered_of_returned (ht : Tree t) {result : Int} (hresult : result ≠ child)
    (events : List Event) (hexit : events.count .exit = 0) (hwait : events.count .waitpid = 0) :
    ¬ Delivered t parent child statusPhys errCode (some (.returned result)) events := by
  induction events generalizing t with
  | nil =>
    rintro ⟨call, t₁, t₂, hrun, hgo, _⟩
    cases hrun
    cases hgo
    exact hresult rfl
  | cons e events ih =>
    cases e with
    | exit => simp at hexit
    | waitpid => simp at hwait
    | reap current =>
      obtain ⟨t', hrun, ht', _⟩ := deleteZombieProcesses_ok ht current
      rw [delivered_reap hrun]
      exact ih ht' (by simpa using hexit) (by simpa using hwait)

/-- After an exit that nobody waited for, the call is answered with `ECHILD`. -/
theorem Missed.not_delivered (h : Missed t parent child) (hchild : child ≠ 0) (events : List Event)
    (hexit : events.count .exit = 0) (hwait : events.count .waitpid = 1) :
    ¬ Delivered t parent child statusPhys errCode none events := by
  induction events generalizing t with
  | nil => simp at hwait
  | cons e events ih =>
    cases e with
    | exit => simp at hexit
    | waitpid =>
      rw [delivered_wait (h.wait hchild statusPhys)]
      exact not_delivered_of_returned h.tree (by simp [echild]) events
        (by simpa using hexit) (by simpa using hwait)
    | reap current =>
      obtain ⟨t', hrun, ht', hreaped, _⟩ := deleteZombieProcesses_ok h.tree current
      rw [delivered_reap hrun]
      exact ih (h.reap hreaped ht') (by simpa using hexit) (by simpa using hwait)

/-- In every interleaving of one exit, one call and any deletions of zombies, the exit status
reaches the parent exactly when the call comes before the exit. -/
theorem exit_status_delivered_iff (ht : Consistent t) {p c : Process}
    (hp : t.byPid parent = some p) (hactive : p.status = .active) (hchild : child ≠ 0)
    (hc : t.byPid child = some c) (hlive : c.status ≠ .zombie) (hparent : c.parent = parent)
    (events : List Event) (hexit : events.count .exit = 1) (hwait : events.count .waitpid = 1) :
    Delivered t parent child statusPhys errCode none events ↔ waitsFirst events = true := by
  have h : Started t parent child := ⟨ht, ⟨p, hp, hactive⟩, c, hc, hlive, hparent⟩
  clear ht hp hactive hc hlive hparent
  induction events generalizing t with
  | nil => simp at hexit
  | cons e events ih =>
    cases e with
    | exit =>
      obtain ⟨t', hrun, hmissed⟩ := h.exit hchild errCode
      rw [delivered_exit hrun]
      simpa [waitsFirst] using
        hmissed.not_delivered hchild events (by simpa using hexit) (by simpa using hwait)
    | waitpid =>
      obtain ⟨t', hrun, hblocked⟩ := h.wait hchild statusPhys
      rw [delivered_wait hrun]
      simpa [waitsFirst] using
        hblocked.delivered hchild errCode events (by simpa using hexit) (by simpa using hwait)
    | reap current =>
      obtain ⟨t', hrun, _, hreaped, hcons⟩ := deleteZombieProcesses_ok h.consistent.tree current
      rw [delivered_reap hrun, waitsFirst]
      exact ih (by simpa using hexit) (by simpa using hwait) (h.reap hreaped hcons)

end

/-- The init process and a child of it. -/
def familyTable : Table := { processes := [some { children := [1] }, some { tgid := 1 }] }

theorem consistent_familyTable : Consistent familyTable := by
  obtain ⟨n, t', hrun, hcons⟩ := clone_ok consistent_bootTable consistent_bootTable.tree.init_live 0
  have hfamily : (clone 0 0).run bootTable = .ok 1 familyTable := rfl
  cases hrun.symm.trans hfamily
  exact hcons

/-- The parent waits, zombies are deleted, the child exits, zombies are deleted. -/
theorem exit_status_delivered_waiting :
    Delivered familyTable 0 1 4096 7 none [.waitpid, .reap 1, .exit, .reap 0] := by
  have hparent : familyTable.byPid 0 = some { children := [1] } := rfl
  have hchild : familyTable.byPid 1 = some { tgid := 1 } := rfl
  exact Iff.mpr (exit_status_delivered_iff consistent_familyTable hparent rfl (by decide) hchild
    (by decide) rfl _ (by decide) (by decide)) rfl

/-- The child exits before the parent waits for it: the parent is told that there is no such
child. -/
theorem exit_before_wait_is_lost :
    Consistent familyTable ∧ familyTable.byPid 0 = some { children := [1] } ∧
      familyTable.byPid 1 = some { tgid := 1, parent := 0 } ∧
      (∃ t, (runEvents 0 1 4096 7 none [.exit, .waitpid]).run familyTable =
        .ok (some (.returned (-echild))) t) ∧
      ¬ Delivered familyTable 0 1 4096 7 none [.exit, .waitpid] := by
  refine ⟨consistent_familyTable, rfl, rfl, ⟨_, rfl⟩, ?_⟩
  rintro ⟨call, t₁, t₂, hrun, hgo, _⟩
  cases hrun
  cases hgo

end LudOS.Tasking.ProcessTable
