import LudOS.Tasking.World

/-!
# The sleep queue callback

A process that blocks with a timeout has a timer in the sleep queue, and nothing takes the timer
out again when the process is woken or killed before it expires. The callback of such a stale timer
finds a process that is running, that is blocked on something else, or that is gone, and its
assertions fail or it wakes the wrong process.

As long as no process with a pending timer is woken by `post()` or killed, every timer in the queue
is the one its process is blocked on. `TimersLive` is that invariant, and `callback_sound` what it
says about the callbacks of a run.
-/

namespace LudOS.Tasking

variable {p : Process} {t : Timer} {out : Outcome} {w₀ : World}

open Lib

/-- The callback found the process blocked, and on the timer that expired. -/
def Fired.Sound (r : Fired) : Prop :=
  (r.status = some .ioWait ∨ r.status = some .sleeping) ∧ r.blockedOn = some r.timer.id

/-- The process has a timer in the sleep queue. -/
def HasTimer (w : World) (pid : Nat) : Prop :=
  ∃ t ∈ DeltaQueue.elements w.sleepQueue, t.pid = pid

/-- The process has an entry in the wait list of a semaphore. -/
def HasEntry (w : World) (pid : Nat) : Prop :=
  ∃ sem, ∃ entry ∈ (w.semaphores sem).waitList, entry.proc = pid

/-- A `post()` does not wake a process whose timer is pending, and a process is not killed while
its timer or its entry in a wait list is pending. -/
def LeavesTimers (w : World) (label : Op × Outcome) : Prop :=
  match label.1 with
  | .post sem => ∀ entry ∈ (w.semaphores sem).waitList.head?, ¬ HasTimer w entry.proc
  | .kill pid => ¬ HasTimer w pid ∧ ¬ HasEntry w pid
  | _ => True

/-- A state in which no process is blocked. -/
structure Idle (w : World) : Prop where
  sleepQueue : w.sleepQueue = []
  fired : w.fired = []
  waitList : ∀ sem, (w.semaphores sem).waitList = []

/-! ## The invariant -/

/-- The process of the timer is blocked on it: it sleeps, or it waits for the semaphore that its
timeout action names. -/
def BlockedOn (w : World) (t : Timer) : Prop :=
  ∃ p, w.byPid t.pid = some p ∧ p.blockedOn = some t.id ∧
    (p.status = .sleeping ∨ p.status = .ioWait ∧ ∃ sem, p.timeoutAction = some sem ∧
      ∃ entry ∈ (w.semaphores sem).waitList, entry.proc = t.pid)

/-- The invariant of a world whose pending timers are `timers`. -/
structure TimersLive (timers : List Timer) (w : World) : Prop where
  nodup : (timers.map (·.pid)).Nodup
  blockedOn : ∀ t ∈ timers, BlockedOn w t
  waiting : ∀ sem, ∀ entry ∈ (w.semaphores sem).waitList,
    ∃ p, w.byPid entry.proc = some p ∧ p.status ≠ .zombie
  fired : ∀ r ∈ w.fired, r.Sound

/-- What the timers of a process depend on is the same in both worlds. -/
structure Undisturbed (w w' : World) (pid : Nat) : Prop where
  process : ∀ p, w.byPid pid = some p → ∃ p', w'.byPid pid = some p' ∧ p'.status = p.status ∧
    p'.blockedOn = p.blockedOn ∧ p'.timeoutAction = p.timeoutAction
  entry : ∀ sem, ∀ e ∈ (w.semaphores sem).waitList, e.proc = pid →
    ∃ e' ∈ (w'.semaphores sem).waitList, e'.proc = pid

variable {w w' : World} {timers : List Timer} {pid : Nat}

theorem BlockedOn.of_undisturbed (h : BlockedOn w t) (hu : Undisturbed w w' t.pid) :
    BlockedOn w' t := by
  obtain ⟨p, hp, hon, hstatus⟩ := h
  obtain ⟨p', hp', hs, hb, ha⟩ := hu.process p hp
  refine ⟨p', hp', hb.trans hon, ?_⟩
  rcases hstatus with hsleep | ⟨hwait, sem, hact, e, hmem, he⟩
  · exact Or.inl (hs.trans hsleep)
  · exact Or.inr ⟨hs.trans hwait, sem, ha.trans hact, hu.entry sem e hmem he⟩

/-- A blocked process is neither active nor waiting for a child nor a zombie. -/
theorem BlockedOn.status (h : BlockedOn w t)
    (hp : w.byPid t.pid = some p) : p.status = .sleeping ∨ p.status = .ioWait := by
  obtain ⟨q, hq, _, hstatus⟩ := h
  obtain rfl : p = q := Option.some.inj (hp.symm.trans hq)
  exact hstatus.imp_right And.left

/-- A process that is not blocked has no timer. -/
theorem TimersLive.pid_ne (h : TimersLive timers w) (hp : w.byPid pid = some p)
    (hs : p.status ≠ .sleeping) (hw : p.status ≠ .ioWait) : ∀ t ∈ timers, t.pid ≠ pid := by
  rintro t ht rfl
  rcases (h.blockedOn t ht).status hp with h' | h'
  · exact hs h'
  · exact hw h'

/-- A step that starts no timer and leaves those pending alone keeps the invariant. -/
theorem TimersLive.frame (h : TimersLive timers w) (hfired : w'.fired = w.fired)
    (hu : ∀ t ∈ timers, Undisturbed w w' t.pid)
    (hwaiting : ∀ sem, ∀ entry ∈ (w'.semaphores sem).waitList,
      ∃ p, w'.byPid entry.proc = some p ∧ p.status ≠ .zombie) : TimersLive timers w' where
  nodup := h.nodup
  blockedOn t ht := (h.blockedOn t ht).of_undisturbed (hu t ht)
  waiting := hwaiting
  fired := hfired ▸ h.fired

/-- A new timer of a process that had none joins the invariant. -/
theorem TimersLive.insert {t : Timer} {queue : DeltaQueue Timer} {ticks : Nat}
    (h : TimersLive (DeltaQueue.elements queue) w) (ht : BlockedOn w t)
    (hnew : ∀ t' ∈ DeltaQueue.elements queue, t'.pid ≠ t.pid) :
    TimersLive (DeltaQueue.elements (DeltaQueue.insert t ticks queue)) w := by
  have hperm := DeltaQueue.elements_insert_perm t ticks queue
  refine ⟨?_, ?_, h.waiting, h.fired⟩
  · rw [(hperm.map _).nodup_iff, List.map_cons, List.nodup_cons]
    refine ⟨fun hmem => ?_, h.nodup⟩
    obtain ⟨t', ht', heq⟩ := List.mem_map.mp hmem
    exact hnew t' ht' heq
  · intro t' ht'
    rcases List.mem_cons.mp (hperm.mem_iff.mp ht') with rfl | ht'
    · exact ht
    · exact h.blockedOn t' ht'

/-! ## The callback -/

/-- The search for a timed-out process succeeds when the process is in the list and all entries
point to processes. The list keeps its processes. -/
theorem markTimedOut_ok {l : List WaitEntry}
    (hexists : ∀ e ∈ l, ∃ p, w.byPid e.proc = some p) (hmem : ∃ e ∈ l, e.proc = pid) :
    ∃ l', markTimedOut w pid l = .ok l' ∧ l'.map (·.proc) = l.map (·.proc) := by
  induction l with
  | nil => simp at hmem
  | cons e rest ih =>
    obtain ⟨p, hp⟩ := hexists e List.mem_cons_self
    rw [markTimedOut, hp]
    by_cases he : e.proc = pid
    · exact ⟨{ e with timedOut := true } :: rest, by simp [he], rfl⟩
    · have hrest : ∃ e ∈ rest, e.proc = pid := by
        obtain ⟨e', hmem', he'⟩ := hmem
        rcases List.mem_cons.mp hmem' with rfl | hmem'
        · exact absurd he' he
        · exact ⟨e', hmem', he'⟩
      obtain ⟨l', hrun, hmap⟩ := ih (fun e he => hexists e (List.mem_cons_of_mem _ he)) hrest
      exact ⟨e :: l', by simp [he, hrun], by simp [hmap]⟩

/-- The world differs from the old one at most in the flags of wait-list entries. -/
structure SameBlocking (w w' : World) : Prop where
  byPid : ∀ q, w'.byPid q = w.byPid q
  procs : ∀ sem, (w'.semaphores sem).waitList.map (·.proc) =
    (w.semaphores sem).waitList.map (·.proc)
  fired : w'.fired = w.fired

theorem SameBlocking.entry (h : SameBlocking w w') {sem : Nat} {e : WaitEntry}
    (he : e ∈ (w.semaphores sem).waitList) :
    ∃ e' ∈ (w'.semaphores sem).waitList, e'.proc = e.proc := by
  have hmem : e.proc ∈ (w'.semaphores sem).waitList.map (·.proc) :=
    h.procs sem ▸ List.mem_map_of_mem he
  exact List.mem_map.mp hmem

/-- The timeout action of a process that is blocked on the timer runs without a failed
assertion. -/
theorem runTimeoutAction_ok (h : TimersLive timers w) (ht : BlockedOn w t)
    (hp : w.byPid t.pid = some p) :
    ∃ p' w', (runTimeoutAction t.pid p).run w = .ok p' w' ∧ SameBlocking w w' := by
  obtain ⟨q, hq, _, hstatus⟩ := ht
  obtain rfl : p = q := Option.some.inj (hp.symm.trans hq)
  rcases hstatus with hsleep | ⟨hwait, sem, hact, hentry⟩
  · refine ⟨p, w, ?_, ⟨fun _ => rfl, fun _ => rfl, rfl⟩⟩
    rw [runTimeoutAction, if_neg (by simp [hsleep]), run_check_bind hsleep]
    rfl
  · obtain ⟨l', hmark, hmap⟩ := markTimedOut_ok
      (fun e he => (h.waiting sem e he).imp fun _ => And.left) hentry
    refine ⟨{ p with timeoutAction := none },
      w.setSemaphore sem { w.semaphores sem with waitList := l' }, ?_, ⟨fun _ => rfl, ?_, rfl⟩⟩
    · have hremove : (removeTimedOutProcess sem t.pid).run w =
          .ok () (w.setSemaphore sem { w.semaphores sem with waitList := l' }) := by
        rw [removeTimedOutProcess, run_get_bind]
        dsimp only
        rw [hmark]
        rfl
      rw [runTimeoutAction, if_pos hwait, hact]
      rw [run_bind_ok hremove]
      rfl
    · intro sem'
      by_cases hsem : sem' = sem
      · subst hsem
        simpa using hmap
      · simp [hsem]

/-- The callback of a timer that its process is blocked on succeeds and leaves the invariant of the
other timers. -/
theorem sleepCallback_ok (h : TimersLive (t :: timers) w) :
    ∃ w', (sleepCallback t).run w = .ok () w' ∧ TimersLive timers w' := by
  have ht := h.blockedOn t List.mem_cons_self
  obtain ⟨p, hp, hon, hstatus⟩ := id ht
  let record : Fired := ⟨t, some p.status, p.blockedOn⟩
  have hsound : record.Sound := ⟨(ht.status hp).symm.imp (congrArg some) (congrArg some), hon⟩
  let w₁ : World := { w with fired := w.fired ++ [record] }
  have h₁ : TimersLive (t :: timers) w₁ := by
    refine ⟨h.nodup, h.blockedOn, h.waiting, fun r hr => ?_⟩
    rcases List.mem_append.mp hr with hr | hr
    · exact h.fired r hr
    · rw [List.mem_singleton.mp hr]
      exact hsound
  obtain ⟨p', w₂, hrun, hsame⟩ := runTimeoutAction_ok h₁ (h₁.blockedOn t List.mem_cons_self) hp
  let p₃ : Process := { p' with status := .active, blockedOn := none }
  have hby : ∀ q, (w₂.setProcess t.pid p₃).byPid q =
      if q = t.pid then some p₃ else w.byPid q := by
    intro q
    rw [World.byPid_setProcess ((hsame.byPid t.pid).trans hp), hsame.byPid q]
    rfl
  refine ⟨w₂.setProcess t.pid p₃, ?_, ?_⟩
  · rw [sleepCallback, run_get_bind, hp]
    dsimp only [Option.map_some, Option.bind_some]
    rw [run_set_bind, run_bind_ok hrun]
    rfl
  · obtain ⟨hnew, hnodup⟩ := List.nodup_cons.mp h.nodup
    have hother : ∀ t' ∈ timers, t'.pid ≠ t.pid := fun t' ht' heq =>
      hnew (List.mem_map.mpr ⟨t', ht', heq⟩)
    refine ⟨hnodup, fun t' ht' => ?_, fun sem e he => ?_, ?_⟩
    · refine (h₁.blockedOn t' (List.mem_cons_of_mem _ ht')).of_undisturbed ⟨fun q hq => ?_, ?_⟩
      · exact ⟨q, by rw [hby, if_neg (hother t' ht')]; exact hq, rfl, rfl, rfl⟩
      · intro sem e he heq
        exact heq ▸ hsame.entry he
    · have hmem : e.proc ∈ (w₁.semaphores sem).waitList.map (·.proc) :=
        hsame.procs sem ▸ List.mem_map_of_mem he
      obtain ⟨e₀, he₀, heq⟩ := List.mem_map.mp hmem
      rw [hby]
      split
      case isTrue => exact ⟨p₃, rfl, by simp [p₃]⟩
      case isFalse => exact heq ▸ h₁.waiting sem e₀ he₀
    · exact hsame.fired ▸ h₁.fired

/-- An update of the sleep queue runs every callback without a failed assertion and keeps the
invariant. -/
theorem updateSleepQueue_ok (h : TimersLive (DeltaQueue.elements w.sleepQueue) w) (ticks : Nat) :
    ∃ w', (updateSleepQueue ticks).run w = .ok .done w' ∧
      TimersLive (DeltaQueue.elements w'.sleepQueue) w' := by
  have h₁ : TimersLive (DeltaQueue.elements w.sleepQueue) { w with elapsedTicks := ticks } :=
    { h with }
  obtain ⟨queue, w', hrun, h'⟩ := DeltaQueue.decrease_invariant TimersLive
    (fun t rest w hw => sleepCallback_ok hw) ((ticks + (2 ^ 64 - w.elapsedTicks)) % 2 ^ 64) h₁
  refine ⟨{ w' with sleepQueue := queue }, ?_, { h' with }⟩
  rw [updateSleepQueue, run_get_bind]
  rw [run_set_bind, run_bind_ok hrun]
  rfl

/-! ## The other sections -/

/-- A process stays undisturbed when its slot does and no entry is taken out of a list. -/
theorem Undisturbed.of_eq {q : Nat} (hby : w'.byPid q = w.byPid q)
    (hlist : ∀ sem, ∀ e ∈ (w.semaphores sem).waitList, e.proc = q →
      e ∈ (w'.semaphores sem).waitList) : Undisturbed w w' q where
  process p hp := ⟨p, hby.trans hp, rfl, rfl, rfl⟩
  entry sem e he heq := ⟨e, hlist sem e he heq, heq⟩

/-- Only the counter of a semaphore changes. -/
theorem TimersLive.setCounter (h : TimersLive timers w) (sem : Nat) (c : Int32) :
    TimersLive timers (w.setSemaphore sem ⟨c, (w.semaphores sem).waitList⟩) := by
  have hlist : ∀ s, ((w.setSemaphore sem ⟨c, (w.semaphores sem).waitList⟩).semaphores s).waitList =
      (w.semaphores s).waitList := by
    intro s
    by_cases hs : s = sem
    · subst hs
      simp
    · simp [hs]
  refine h.frame rfl (fun t _ => .of_eq rfl fun s e he _ => ?_) fun s e he => ?_
  · rwa [hlist]
  · rw [hlist] at he
    exact h.waiting s e he

/-- A running process blocks in `wait()`. -/
theorem TimersLive.block {sem : Nat} {p : Process} {timeoutTicks : Option Nat}
    (h : TimersLive (DeltaQueue.elements w.sleepQueue) w) (hp : w.byPid pid = some p)
    (hactive : p.status = .active) :
    TimersLive (DeltaQueue.elements (blockOn w pid p sem timeoutTicks).sleepQueue)
      (blockOn w pid p sem timeoutTicks) := by
  have hother := h.pid_ne hp (by simp [hactive]) (by simp [hactive])
  have hby := blockOn_byPid hp sem timeoutTicks
  have hlist : ∀ s, ∀ e ∈ (w.semaphores s).waitList,
      e ∈ ((blockOn w pid p sem timeoutTicks).semaphores s).waitList := by
    intro s e he
    rw [blockOn_semaphores]
    by_cases hs : s = sem
    · subst hs
      simp [he]
    · simpa [hs] using he
  have hlive : TimersLive (DeltaQueue.elements w.sleepQueue)
      (blockOn w pid p sem timeoutTicks) := by
    refine h.frame (by cases timeoutTicks <;> rfl)
      (fun t ht => .of_eq (by rw [hby, if_neg (hother t ht)]) fun s e he _ => hlist s e he) ?_
    intro s e he
    rw [hby]
    split
    case isTrue => exact ⟨_, rfl, by simp⟩
    case isFalse hne =>
      rw [blockOn_semaphores] at he
      by_cases hs : s = sem
      · subst hs
        have hmem : e ∈ (w.semaphores s).waitList ∨ e = ⟨pid, false⟩ := by simpa using he
        rcases hmem with hmem | rfl
        · exact h.waiting s e hmem
        · exact absurd rfl hne
      · exact h.waiting s e (by simpa [hs] using he)
  cases timeoutTicks with
  | none => exact hlive
  | some ticks =>
    refine TimersLive.insert hlive ⟨_, by rw [hby, if_pos rfl], rfl, Or.inr ⟨rfl, sem, rfl, ?_⟩⟩
      hother
    exact ⟨⟨pid, false⟩, by rw [blockOn_semaphores]; simp, rfl⟩

/-- `sys_nanosleep` returns at once, or the process starts a timer and sleeps. -/
theorem sysNanosleep_ok {clockSpeed : Nat} {req : Option Timespec} {remOk : Bool}
    (h : (sysNanosleep pid clockSpeed req remOk).run w = .ok out w') :
    w' = w ∨ ∃ p p' ticks, w.byPid pid = some p ∧ p'.status = .sleeping ∧
      p'.blockedOn = some w.nextTimer ∧ w' = (w.setProcess pid p').startTimer pid ticks := by
  cases req with
  | none =>
    cases h
    exact Or.inl rfl
  | some t =>
    simp only [sysNanosleep] at h
    split at h
    case isTrue =>
      cases h
      exact Or.inl rfl
    case isFalse =>
      split at h
      case isTrue =>
        cases h
        exact Or.inl rfl
      case isFalse =>
        simp only [run_bind_eq_ok, process_eq_ok] at h
        obtain ⟨p, _, ⟨hp, rfl⟩, _, _, hget, _, _, hset, hpure⟩ := h
        cases hget
        cases hset
        cases hpure
        exact Or.inr ⟨p, _, _, hp, rfl, rfl, rfl⟩

/-- A running process blocks in `sys_nanosleep`. -/
theorem TimersLive.sleep {ticks : Nat}
    (h : TimersLive (DeltaQueue.elements w.sleepQueue) w) (hp : w.byPid pid = some p)
    (hactive : p.status = .active) (p' : Process) (hp' : p'.status = .sleeping)
    (hon : p'.blockedOn = some w.nextTimer) :
    TimersLive (DeltaQueue.elements ((w.setProcess pid p').startTimer pid ticks).sleepQueue)
      ((w.setProcess pid p').startTimer pid ticks) := by
  have hother := h.pid_ne hp (by simp [hactive]) (by simp [hactive])
  have hby : ∀ q, ((w.setProcess pid p').startTimer pid ticks).byPid q =
      if q = pid then some p' else w.byPid q := World.byPid_setProcess hp p'
  have hlive : TimersLive (DeltaQueue.elements w.sleepQueue)
      ((w.setProcess pid p').startTimer pid ticks) := by
    refine h.frame rfl (fun t ht => .of_eq (by rw [hby, if_neg (hother t ht)]) fun s e he _ => he)
      fun s e he => ?_
    rw [hby]
    split
    case isTrue => exact ⟨p', rfl, by simp [hp']⟩
    case isFalse => exact h.waiting s e he
  exact TimersLive.insert hlive ⟨p', by rw [hby, if_pos rfl], hon, Or.inl hp'⟩ hother

/-- A process without a timer is woken. -/
theorem TimersLive.wake {p' : Process} (h : TimersLive timers w) (hp : w.byPid pid = some p)
    (hp' : p'.status = .active) (hnone : ∀ t ∈ timers, t.pid ≠ pid) :
    TimersLive timers (w.setProcess pid p') := by
  have hby := World.byPid_setProcess hp p'
  refine h.frame rfl (fun t ht => .of_eq (by rw [hby, if_neg (hnone t ht)]) fun s e he _ => he)
    fun s e he => ?_
  rw [hby]
  split
  case isTrue => exact ⟨p', rfl, by simp [hp']⟩
  case isFalse => exact h.waiting s e he

namespace TimersLive

variable (h : TimersLive (DeltaQueue.elements w.sleepQueue) w)

include h

/-- An active process resumes. -/
theorem resume (hen : Enabled w (.resume pid)) (hrun : (resume pid).run w = .ok out w') :
    TimersLive (DeltaQueue.elements w'.sleepQueue) w' := by
  obtain ⟨q, hq, hactive, _⟩ := hen
  obtain ⟨p, hp, hcases⟩ := resume_ok hrun
  obtain rfl : p = q := Option.some.inj (hp.symm.trans hq)
  have hother := h.pid_ne hp (by simp [hactive]) (by simp [hactive])
  have hleft : TimersLive _ (w.setProcess pid { p with inside := none }) := h.wake hp hactive hother
  obtain ⟨_, rfl⟩ | ⟨_, _, rfl⟩ | ⟨sem, entry, _, _, _, rfl⟩ := hcases
  · exact h
  · exact hleft
  · refine hleft.frame rfl (fun t ht => .of_eq rfl fun s e he heq => ?_) fun s e he => ?_
    · by_cases hs : s = sem
      · subst hs
        have hmem : e ∈ (w.semaphores s).waitList.eraseP (·.proc = pid) :=
          (List.mem_eraseP_of_neg (by simpa [heq] using hother t ht)).mpr he
        simpa using hmem
      · simpa [hs] using he
    · refine hleft.waiting s e ?_
      by_cases hs : s = sem
      · subst hs
        exact List.mem_of_mem_eraseP (by simpa using he)
      · simpa [hs] using he

/-- A `post()` that wakes nobody with a timer. -/
theorem post {sem : Nat}
    (hguard : LeavesTimers w (.post sem, out)) (hrun : (Tasking.post sem).run w = .ok out w') :
    TimersLive (DeltaQueue.elements w'.sleepQueue) w' := by
  obtain ⟨_, ⟨hnil, rfl⟩ | ⟨entry, rest, p, hlist, hp, rfl⟩⟩ := post_ok hrun
  · rw [← hnil]
    exact h.setCounter sem _
  · rw [← hlist]
    refine (h.setCounter sem _).wake hp rfl fun t ht heq => ?_
    exact hguard entry (by simp [hlist]) ⟨t, ht, heq⟩

end TimersLive

/-! ### Killing and releasing -/

/-- What the loops of `kill` do to the processes: only a process that waited for a child gets
another status. -/
structure Tame (w w' : World) : Prop where
  semaphores : w'.semaphores = w.semaphores
  sleepQueue : w'.sleepQueue = w.sleepQueue
  fired : w'.fired = w.fired
  process : ∀ q p, w.byPid q = some p → ∃ p', w'.byPid q = some p' ∧
    (p'.status = p.status ∨ p.status = .childWait ∧ p'.status = .active) ∧
    p'.blockedOn = p.blockedOn ∧ p'.timeoutAction = p.timeoutAction

theorem Tame.refl (w : World) : Tame w w :=
  ⟨rfl, rfl, rfl, fun _ p hp => ⟨p, hp, Or.inl rfl, rfl, rfl⟩⟩

/-- Replacing a process by one that differs in nothing that timers depend on, or that no longer
waits for its child. -/
theorem Tame.setProcess (h : Tame w₀ w) {p' : Process} (hp : w.byPid pid = some p)
    (hstatus : p'.status = p.status ∨ p.status = .childWait ∧ p'.status = .active)
    (hon : p'.blockedOn = p.blockedOn) (hact : p'.timeoutAction = p.timeoutAction) :
    Tame w₀ (w.setProcess pid p') := by
  refine ⟨h.semaphores, h.sleepQueue, h.fired, fun q r hr => ?_⟩
  obtain ⟨r', hr', hs, ho, ha⟩ := h.process q r hr
  rw [World.byPid_setProcess hp]
  split
  case isTrue heq =>
    subst heq
    obtain rfl : p = r' := Option.some.inj (hp.symm.trans hr')
    refine ⟨p', rfl, ?_, hon.trans ho, hact.trans ha⟩
    rcases hstatus with hstatus | ⟨hchild, hactive⟩
    · exact hstatus ▸ hs
    · rcases hs with hs | ⟨_, hs⟩
      · exact Or.inr ⟨hs.symm.trans hchild, hactive⟩
      · rw [hs] at hchild
        cases hchild
  case isFalse => exact ⟨r', hr', hs, ho, ha⟩

theorem reparent_tame {child : Nat} {u : Unit} (h : Tame w₀ w)
    (hrun : (reparent child).run w = .ok u w') : Tame w₀ w' := by
  simp only [reparent, run_bind_eq_ok, process_eq_ok] at hrun
  obtain ⟨c, _, ⟨hc, rfl⟩, _, _, hset, i, _, ⟨hi, rfl⟩, hset'⟩ := hrun
  cases hset
  cases hset'
  have h₁ : Tame w₀ (w.setProcess child { c with parent := 0 }) :=
    h.setProcess hc (Or.inl rfl) rfl rfl
  exact h₁.setProcess hi (Or.inl rfl) rfl rfl

theorem wakeUp_tame {waiting : Nat} {u : Unit} (h : Tame w₀ w)
    (hrun : (wakeUp waiting).run w = .ok u w') : Tame w₀ w' := by
  simp only [wakeUp, run_bind_eq_ok, process_eq_ok, run_check_eq_ok] at hrun
  obtain ⟨p, _, ⟨hp, rfl⟩, _, _, ⟨hchild, rfl⟩, hset⟩ := hrun
  cases hset
  exact h.setProcess hp (Or.inr ⟨hchild, rfl⟩) rfl rfl

theorem kill_ok {out : Outcome} (h : (kill pid).run w = .ok out w') : ∃ p, w.byPid pid = some p ∧
    Tame (w.setProcess pid { p with status := .zombie, blockedOn := none }) w' := by
  simp only [kill, run_bind_eq_ok, process_eq_ok, run_check_eq_ok] at h
  obtain ⟨_, _, ⟨_, rfl⟩, _, _, hget, _, _, ⟨_, rfl⟩, p, _, ⟨hp, rfl⟩, _, _, hset, _, w₂, hreparent,
    _, _, hget', _, _, ⟨_, rfl⟩, _, _, hwake, hpure⟩ := h
  cases hget
  cases hset
  cases hget'
  cases hpure
  exact ⟨p, hp, each_preserves (fun _ _ _ => wakeUp_tame)
    (each_preserves (fun _ _ _ => reparent_tame) (Tame.refl _) hreparent) hwake⟩

theorem releaseZombie_ok {current : Nat} {out : Outcome}
    (h : (releaseZombie current pid).run w = .ok out w') : ∃ p parent, w.byPid pid = some p ∧
      p.status = .zombie ∧ w.byPid p.parent = some parent ∧
      w' = (w.setProcess p.parent { parent with
        children := parent.children.filter (· ≠ pid) }).clearProcess pid := by
  simp only [releaseZombie, run_bind_eq_ok, process_eq_ok, run_check_eq_ok] at h
  obtain ⟨_, _, ⟨_, rfl⟩, p, _, ⟨hp, rfl⟩, _, _, ⟨hzombie, rfl⟩, _, _, hget, hrun⟩ := h
  cases hget
  split at hrun
  case h_1 => cases hrun
  case h_2 parent hparent =>
    simp only [run_bind_eq_ok, run_check_eq_ok] at hrun
    obtain ⟨_, _, ⟨_, rfl⟩, _, _, hset, _, _, hclear, hpure⟩ := hrun
    cases hset
    cases hclear
    cases hpure
    exact ⟨p, parent, hp, hzombie, hparent, rfl⟩

/-- A process without a timer or an entry is killed. -/
theorem TimersLive.kill (h : TimersLive (DeltaQueue.elements w.sleepQueue) w)
    (hguard : LeavesTimers w (.kill pid, out)) (hrun : (Tasking.kill pid).run w = .ok out w') :
    TimersLive (DeltaQueue.elements w'.sleepQueue) w' := by
  obtain ⟨p, hp, htame⟩ := kill_ok hrun
  have hprocess : ∀ q r, q ≠ pid → w.byPid q = some r → ∃ r', w'.byPid q = some r' ∧
      (r'.status = r.status ∨ r.status = .childWait ∧ r'.status = .active) ∧
      r'.blockedOn = r.blockedOn ∧ r'.timeoutAction = r.timeoutAction := fun q r hq hr =>
    htame.process q r ((World.byPid_setProcess_other w _ hq).trans hr)
  rw [htame.sleepQueue]
  refine h.frame htame.fired (fun t ht => ⟨fun q hq => ?_, fun s e he heq => ⟨e, ?_, heq⟩⟩)
    fun s e he => ?_
  · obtain ⟨q', hq', hs, hrest⟩ := hprocess t.pid q (fun heq => hguard.1 ⟨t, ht, heq⟩) hq
    refine ⟨q', hq', ?_, hrest⟩
    rcases hs with hs | ⟨hchild, _⟩
    · exact hs
    · rcases (h.blockedOn t ht).status hq with hb | hb <;> rw [hb] at hchild <;> cases hchild
  · rw [htame.semaphores]
    exact he
  · rw [htame.semaphores] at he
    obtain ⟨q, hq, hz⟩ := h.waiting s e he
    obtain ⟨q', hq', hs, _⟩ := hprocess e.proc q (fun heq => hguard.2 ⟨s, e, he, heq⟩) hq
    refine ⟨q', hq', ?_⟩
    rcases hs with hs | ⟨_, hs⟩
    · rwa [hs]
    · simp [hs]

/-- A zombie is released. -/
theorem TimersLive.release {current : Nat} {out : Outcome}
    (h : TimersLive (DeltaQueue.elements w.sleepQueue) w)
    (hrun : (releaseZombie current pid).run w = .ok out w') :
    TimersLive (DeltaQueue.elements w'.sleepQueue) w' := by
  obtain ⟨p, parent, hp, hzombie, hparent, rfl⟩ := releaseZombie_ok hrun
  have hprocess : ∀ q r, q ≠ pid → w.byPid q = some r → ∃ r',
      ((w.setProcess p.parent { parent with children := parent.children.filter (· ≠ pid) }
        ).clearProcess pid).byPid q = some r' ∧ r'.status = r.status ∧
      r'.blockedOn = r.blockedOn ∧ r'.timeoutAction = r.timeoutAction := by
    intro q r hq hr
    rw [World.byPid_clearProcess_other _ hq, World.byPid_setProcess hparent]
    split
    case isTrue heq =>
      obtain rfl : parent = r := Option.some.inj (hparent.symm.trans (heq ▸ hr))
      exact ⟨_, rfl, rfl, rfl, rfl⟩
    case isFalse => exact ⟨r, hr, rfl, rfl, rfl⟩
  have hother := h.pid_ne hp (by simp [hzombie]) (by simp [hzombie])
  refine h.frame rfl (fun t ht => ⟨fun q hq => hprocess t.pid q (hother t ht) hq,
    fun s e he heq => ⟨e, he, heq⟩⟩) fun s e he => ?_
  obtain ⟨q, hq, hz⟩ := h.waiting s e he
  have hne : e.proc ≠ pid := by
    intro heq
    obtain rfl : p = q := Option.some.inj (hp.symm.trans (heq ▸ hq))
    exact hz hzombie
  obtain ⟨q', hq', hs, _⟩ := hprocess e.proc q hne hq
  exact ⟨q', hq', hs ▸ hz⟩

/-- Every section that leaves pending timers alone keeps the invariant. -/
theorem timersLive_step {label : Op × Outcome}
    (h : TimersLive (DeltaQueue.elements w.sleepQueue) w) (hguard : LeavesTimers w label)
    (hstep : Step w label w') : TimersLive (DeltaQueue.elements w'.sleepQueue) w' := by
  obtain ⟨op, out⟩ := label
  obtain ⟨hen, hrun⟩ := hstep
  cases op with
  | wait pid sem timeoutTicks =>
    obtain ⟨p, hp, ⟨_, _, rfl⟩ | ⟨_, _, rfl⟩⟩ := wait_ok hrun
    · obtain ⟨q, hq, hactive, _⟩ := hen
      obtain rfl : p = q := Option.some.inj (hp.symm.trans hq)
      exact h.block hp hactive
    · exact h.setCounter sem _
  | tryWait pid sem =>
    obtain ⟨_, _, rfl⟩ | ⟨_, _, rfl⟩ := tryWait_ok hrun
    · exact h
    · exact h.setCounter sem _
  | post sem => exact h.post hguard hrun
  | resume pid => exact h.resume hen hrun
  | nanosleep pid clockSpeed req remOk =>
    obtain ⟨q, hq, hactive, _⟩ := hen
    rcases sysNanosleep_ok hrun with rfl | ⟨p, p', ticks, hp, hs, hon, rfl⟩
    · exact h
    · obtain rfl : p = q := Option.some.inj (hp.symm.trans hq)
      exact h.sleep hp hactive p' hs hon
  | kill pid => exact h.kill hguard hrun
  | releaseZombie current pid => exact h.release hrun
  | updateSleepQueue ticks =>
    obtain ⟨w₁, hok, h₁⟩ := updateSleepQueue_ok h ticks
    cases hok.symm.trans hrun
    exact h₁

theorem Idle.timersLive (h : Idle w) : TimersLive (DeltaQueue.elements w.sleepQueue) w := by
  rw [h.sleepQueue]
  exact ⟨List.nodup_nil, by simp, by simp [h.waitList], by simp [h.fired]⟩

/-- In every run whose steps leave pending timers alone, every callback that ran found its process
blocked on the timer that expired, and the next update of the sleep queue runs its callbacks
without a failed assertion and finds the same. -/
theorem callback_sound {w₀ w : World} {labels : List (Op × Outcome)} (h₀ : Idle w₀)
    (hrun : Steps (Guarded LeavesTimers Step) w₀ labels w) : (∀ r ∈ w.fired, r.Sound) ∧
      ∀ ticks, w.elapsedTicks ≤ ticks → ∃ w', Step w (.updateSleepQueue ticks, .done) w' ∧
        ∀ r ∈ w'.fired, r.Sound := by
  have hlive : TimersLive (DeltaQueue.elements w.sleepQueue) w :=
    Steps.invariant (fun w => TimersLive (DeltaQueue.elements w.sleepQueue) w)
      (fun _ _ _ h hstep => timersLive_step h hstep.1 hstep.2) hrun h₀.timersLive
  refine ⟨hlive.fired, fun ticks hticks => ?_⟩
  obtain ⟨w', hupdate, hlive'⟩ := updateSleepQueue_ok hlive ticks
  exact ⟨w', ⟨hticks, hupdate⟩, hlive'.fired⟩

/-- The idle process and another one, both active, with every semaphore at zero. -/
def oneProcess : World := { processes := [some {}, some {}] }

theorem idle_one_process : Idle oneProcess := ⟨rfl, rfl, fun _ => rfl⟩

/-- A process waits with a timeout and its timer expires. -/
theorem callback_sound_timeout :
    ∃ w, Steps (Guarded LeavesTimers Step) oneProcess [(.wait 1 0 (some 10), .blocked)] w ∧
      ∃ w', Step w (.updateSleepQueue 10, .done) w' ∧ ∀ r ∈ w'.fired, r.Sound := by
  have hrun : ∃ w, Steps (Guarded LeavesTimers Step) oneProcess
      [(.wait 1 0 (some 10), .blocked)] w ∧ w.elapsedTicks = 0 :=
    ⟨_, .snoc (.refl _) ⟨trivial, ⟨_, rfl, rfl, rfl⟩, rfl⟩, rfl⟩
  obtain ⟨w, hrun, hticks⟩ := hrun
  exact ⟨w, hrun, (callback_sound idle_one_process hrun).2 10 (by omega)⟩

/-- A process waits with a timeout of ten ticks, is woken by a `post()` and its timer expires
afterwards: the process is running, and the assertion of the callback fails. -/
theorem stale_timer_fails_assertion : Idle oneProcess ∧ ∃ w w', Steps Step oneProcess
        [(.wait 1 0 (some 10), .blocked), (.post 0, .done)] w ∧
      (updateSleepQueue 10).run w = .error .assertion w' ∧
      w'.fired = [⟨⟨1, 0⟩, some .active, none⟩] := by
  refine ⟨idle_one_process, _, _, .snoc (.snoc (.refl _) ⟨⟨_, rfl, rfl, rfl⟩, rfl⟩)
    ⟨trivial, rfl⟩, rfl, rfl⟩

end LudOS.Tasking
