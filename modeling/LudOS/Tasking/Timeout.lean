import LudOS.Tasking.SleepQueue

/-!
# Waits that time out

`wait()` lowers the counter before it blocks, and neither the callback that ends a wait by timeout
nor the rest of `wait()` raises it again. `counterAfter` says what every section does to a counter,
so two runs with the same sections and outcomes that start one apart stay one apart:
`timed_out_wait_counter`. The wait list forgets the wait, the counter does not, and
`leaves_semaphore_iff` says that this happens whenever a wait blocks.
-/

namespace LudOS.Tasking

open Lib

variable {w w' : World} {pid sem : Nat}

/-! ## The counter -/

/-- What a section that ended with the given outcome has done to the counter of a semaphore. -/
def counterAfter (sem : Nat) (c : Int32) : Op × Outcome → Int32
  | (.wait _ s _, _) => if s = sem then c - 1 else c
  | (.tryWait _ s, .tried true) => if s = sem then c - 1 else c
  | (.post s, _) => if s = sem then c + 1 else c
  | _ => c

theorem counter_setSemaphore (w : World) (s : Nat) (v : Semaphore) (sem : Nat) :
    ((w.setSemaphore s v).semaphores sem).counter =
      if s = sem then v.counter else (w.semaphores sem).counter := by
  by_cases h : s = sem
  · simp [h]
  · simp [h, Ne.symm h]

/-- What the callback of a timer does: it makes the process active, and if the process waited with
a timeout action, it marks its entry first. -/
structure Expires (w : World) (t : Timer) (w' : World) : Prop where
  fired : ∃ r, w'.fired = w.fired ++ [r] ∧ r.timer = t
  process : ∃ p p', w.byPid t.pid = some p ∧ p'.inside = p.inside ∧ p'.status = .active ∧
    (∀ q, w'.byPid q = if q = t.pid then some p' else w.byPid q) ∧
    ((p.status = .ioWait → p.timeoutAction = none) ∧ w'.semaphores = w.semaphores ∨
      ∃ s v l, p.timeoutAction = some s ∧
        markTimedOut v t.pid (w.semaphores s).waitList = .ok l ∧
        w'.semaphores = Function.update w.semaphores s ⟨(w.semaphores s).counter, l⟩)

theorem sleepCallback_expires {t : Timer} {u : Unit} (h : (sleepCallback t).run w = .ok u w') :
    Expires w t w' := by
  rw [sleepCallback, run_get_bind] at h
  cases hp : w.byPid t.pid with
  | none =>
    simp only [hp] at h
    cases h
  | some p =>
    simp only [hp, Option.map_some, Option.bind_some] at h
    rw [run_set_bind, run_bind_eq_ok] at h
    obtain ⟨p', w₁, haction, hset⟩ := h
    cases hset
    unfold runTimeoutAction at haction
    split at haction
    case isTrue hwait =>
      cases hact : p.timeoutAction with
      | none =>
        simp only [hact] at haction
        cases haction
        exact ⟨⟨_, rfl, rfl⟩, p, { p with status := .active, blockedOn := none }, hp, rfl, rfl,
          World.byPid_setProcess hp _, .inl ⟨fun _ => hact, rfl⟩⟩
      | some s =>
        simp only [hact] at haction
        rw [run_bind_eq_ok] at haction
        obtain ⟨_, w₂, hremove, hpure⟩ := haction
        cases hpure
        rw [removeTimedOutProcess, run_get_bind] at hremove
        dsimp only at hremove
        split at hremove
        case h_1 => cases hremove
        case h_2 l hmark =>
          cases hremove
          exact ⟨⟨_, rfl, rfl⟩, p,
            { p with timeoutAction := none, status := .active, blockedOn := none }, hp, rfl,
            rfl, World.byPid_setProcess hp _, .inr ⟨s, _, l, hact, hmark, rfl⟩⟩
    case isFalse hwait =>
      rw [run_bind_eq_ok] at haction
      obtain ⟨_, _, hcheck, hpure⟩ := haction
      obtain ⟨_, rfl⟩ := run_check_eq_ok.mp hcheck
      cases hpure
      exact ⟨⟨_, rfl, rfl⟩, p, { p with status := .active, blockedOn := none }, hp, rfl, rfl,
        World.byPid_setProcess hp _, .inl ⟨fun h => absurd h hwait, rfl⟩⟩

theorem Expires.counter {t : Timer} (h : Expires w t w') (sem : Nat) :
    (w'.semaphores sem).counter = (w.semaphores sem).counter := by
  obtain ⟨_, _, _, _, _, _, ⟨_, hsem⟩ | ⟨s, _, l, _, _, hsem⟩⟩ := h.process
  · rw [hsem]
  · rw [hsem]
    by_cases hs : sem = s
    · simp [hs]
    · simp [hs]

theorem decrease_counter (sem : Nat) {queue queue' : DeltaQueue Timer} {n : Nat}
    (h : (DeltaQueue.decrease sleepCallback queue n).run w = .ok queue' w') :
    (w'.semaphores sem).counter = (w.semaphores sem).counter := by
  induction queue generalizing n w with
  | nil =>
    cases h
    rfl
  | cons entry rest ih =>
    rw [DeltaQueue.decrease] at h
    split at h
    case isTrue =>
      obtain ⟨_, w₁, hpop, hrest⟩ := run_bind_eq_ok.mp h
      rw [ih hrest, (sleepCallback_expires hpop).counter]
    case isFalse =>
      cases h
      rfl

theorem kill_semaphores {out : Outcome} (h : (kill pid).run w = .ok out w') :
    w'.semaphores = w.semaphores := by
  obtain ⟨p, -, htame⟩ := kill_ok h
  exact htame.semaphores

theorem releaseZombie_semaphores {current : Nat} {out : Outcome}
    (h : (releaseZombie current pid).run w = .ok out w') : w'.semaphores = w.semaphores := by
  obtain ⟨p, parent, -, -, -, rfl⟩ := releaseZombie_ok h
  rfl

/-- The label of a step tells what it does to a counter. -/
theorem step_counter {label : Op × Outcome} (h : Step w label w') (sem : Nat) :
    (w'.semaphores sem).counter = counterAfter sem (w.semaphores sem).counter label := by
  obtain ⟨op, out⟩ := label
  obtain ⟨_, hrun⟩ := h
  cases op with
  | wait pid s timeoutTicks =>
    obtain ⟨p, _, ⟨_, _, rfl⟩ | ⟨_, _, rfl⟩⟩ := wait_ok hrun
    · rw [blockOn_semaphores]
      by_cases hs : sem = s
      · simp [hs, counterAfter]
      · simp [hs, Ne.symm hs, counterAfter]
    · rw [counter_setSemaphore, counterAfter]
      split
      case isTrue hs => rw [hs]
      case isFalse => rfl
  | tryWait pid s =>
    obtain ⟨_, rfl, rfl⟩ | ⟨_, rfl, rfl⟩ := tryWait_ok hrun
    · rfl
    · rw [counter_setSemaphore, counterAfter]
      split
      case isTrue hs => rw [hs]
      case isFalse => rfl
  | post s =>
    obtain ⟨rfl, ⟨_, rfl⟩ | ⟨entry, rest, p, _, _, rfl⟩⟩ := post_ok hrun
    all_goals
      simp only [World.semaphores_setProcess, counter_setSemaphore, counterAfter]
      split
      case isTrue hs => rw [hs]
      case isFalse => rfl
  | resume pid =>
    obtain ⟨p, _, ⟨_, rfl⟩ | ⟨_, _, rfl⟩ | ⟨s, entry, _, _, _, rfl⟩⟩ := resume_ok hrun
    · rfl
    · rfl
    · rw [counter_setSemaphore]
      split
      case isTrue hs => rw [hs]; rfl
      case isFalse => rfl
  | nanosleep pid clockSpeed req remOk =>
    rcases sysNanosleep_ok hrun with rfl | ⟨_, _, _, _, _, _, rfl⟩ <;> rfl
  | kill pid => exact congrArg (fun f => (f sem).counter) (kill_semaphores hrun)
  | releaseZombie current pid =>
    exact congrArg (fun f => (f sem).counter) (releaseZombie_semaphores hrun)
  | updateSleepQueue ticks =>
    simp only [exec, updateSleepQueue] at hrun
    rw [run_get_bind, run_set_bind] at hrun
    obtain ⟨queue, w₁, hdecrease, hrest⟩ := run_bind_eq_ok.mp hrun
    cases hrest
    have hcounter := decrease_counter sem hdecrease
    exact hcounter

/-- Two steps with the same label keep the distance between two counters. -/
theorem counterAfter_pred (sem : Nat) (c : Int32) (label : Op × Outcome) :
    counterAfter sem (c - 1) label = counterAfter sem c label - 1 := by
  have hpost : c - 1 + 1 = c + 1 - 1 := by rw [Int32.sub_add_cancel, Int32.add_sub_cancel]
  unfold counterAfter
  split
  all_goals try split
  all_goals first | rfl | exact hpost

/-- What a run does to a counter depends on its labels only. -/
theorem steps_counter {labels : List (Op × Outcome)} (h : Steps Step w labels w') (sem : Nat) :
    (w'.semaphores sem).counter = labels.foldl (counterAfter sem) (w.semaphores sem).counter := by
  induction h with
  | refl => rfl
  | snoc _ hlast ih => rw [step_counter hlast, ih, List.foldl_append, List.foldl_cons,
      List.foldl_nil]

theorem foldl_counterAfter_pred (sem : Nat) (c : Int32) (labels : List (Op × Outcome)) :
    labels.foldl (counterAfter sem) (c - 1) = labels.foldl (counterAfter sem) c - 1 := by
  induction labels generalizing c with
  | nil => rfl
  | cons label labels ih => rw [List.foldl_cons, List.foldl_cons, counterAfter_pred, ih]

/-! ## Runs with and without the wait -/

/-- The run from `w` in which the process blocks in `wait()` with a timeout, its timer expires
before there is a `post()`, and the call returns `ETIMEDOUT`. `labels` are the other sections. -/
structure TimedOutRun (w : World) (pid sem ticks : Nat) (labels : List (Op × Outcome))
    (w' : World) :
    Prop where
  run : ∃ before after w₁ w₂ w₃, labels = before ++ after ∧
    Step w (.wait pid sem (some ticks), .blocked) w₁ ∧ Steps Step w₁ before w₂ ∧
    (∀ label ∈ before, label.1 ≠ .post sem) ∧ (∃ r ∈ w₂.fired, r.timer = ⟨pid, w.nextTimer⟩) ∧
    Steps Step w₂ after w₃ ∧ Step w₃ (.resume pid, .returned .etimedout) w'

/-- Every timed-out wait leaves the semaphore as the same run without the wait does. -/
def LeavesSemaphore (w : World) (pid sem ticks : Nat) : Prop :=
  ∀ labels w₁ w₂, TimedOutRun w pid sem ticks labels w₁ → Steps Step w labels w₂ →
    w₁.semaphores sem = w₂.semaphores sem

/-- A timed-out wait leaves the counter one lower than the same run without it does. -/
theorem timed_out_wait_counter {ticks : Nat} {labels : List (Op × Outcome)} {w₁ w₂ : World}
    (h : TimedOutRun w pid sem ticks labels w₁) (hwithout : Steps Step w labels w₂) :
    (w₁.semaphores sem).counter = (w₂.semaphores sem).counter - 1 := by
  obtain ⟨before, after, v₁, v₂, v₃, rfl, hwait, hbefore, _, _, hafter, hresume⟩ := h.run
  have hlast := step_counter hresume sem
  have hfirst := step_counter hwait sem
  rw [steps_counter (hbefore.append hafter) sem, hfirst] at hlast
  rw [hlast, steps_counter hwithout sem, ← foldl_counterAfter_pred]
  simp [counterAfter]

/-! ## A blocked wait can time out -/

/-- A marked list differs in the first entry of the process. -/
theorem markTimedOut_find {v : World} {l l' : List WaitEntry} (h : markTimedOut v pid l = .ok l')
    (q : Nat) : l'.find? (·.proc = q) =
      if q = pid then (l.find? (·.proc = q)).map ({ · with timedOut := true })
      else l.find? (·.proc = q) := by
  induction l generalizing l' with
  | nil => cases h
  | cons entry rest ih =>
    rw [markTimedOut] at h
    split at h
    case isTrue => cases h
    case isFalse =>
      split at h
      case isTrue hproc =>
        cases h
        by_cases hq : q = pid
        · simp [hq, hproc]
        · simp [hq, hproc, Ne.symm hq]
      case isFalse hproc =>
        cases hmark : markTimedOut v pid rest with
        | error e =>
          rw [hmark] at h
          cases h
        | ok rest' =>
          rw [hmark] at h
          cases h
          have hrest := ih hmark
          by_cases hq : q = pid
          · subst hq
            simpa [hproc] using hrest
          · rw [if_neg hq] at hrest
            by_cases heq : entry.proc = q
            · simp [hq, heq]
            · simp [hq, heq, hrest]

/-- The process is blocked in `wait()` with a timeout. -/
def Waiting (w : World) (pid sem : Nat) : Prop :=
  ∃ p, w.byPid pid = some p ∧ p.status = .ioWait ∧ p.timeoutAction = some sem ∧
    p.inside = some (.wait sem) ∧
    ∃ entry, (w.semaphores sem).waitList.find? (·.proc = pid) = some entry

/-- The timer has expired, and the process can go on with the end of `wait()`. -/
def TimedOut (w : World) (t : Timer) (sem : Nat) : Prop :=
  (∃ r ∈ w.fired, r.timer = t) ∧ ∃ p, w.byPid t.pid = some p ∧ p.status = .active ∧
    p.inside = some (.wait sem) ∧
    ∃ entry, (w.semaphores sem).waitList.find? (·.proc = t.pid) = some entry ∧ entry.timedOut = true

namespace Expires

variable {t : Timer} (h : Expires w t w')

include h

/-- The expiry of a timer leaves the entries of other processes alone. -/
theorem find_other (hne : pid ≠ t.pid) (sem : Nat) :
    (w'.semaphores sem).waitList.find? (·.proc = pid) =
      (w.semaphores sem).waitList.find? (·.proc = pid) := by
  obtain ⟨_, _, _, _, _, _, ⟨_, hsem⟩ | ⟨s, _, l, _, hmark, hsem⟩⟩ := h.process
  · rw [hsem]
  · rw [hsem]
    by_cases hs : sem = s
    · subst hs
      have := markTimedOut_find hmark pid
      rw [if_neg hne] at this
      simpa using this
    · simp [hs]

theorem byPid_other (hne : pid ≠ t.pid) : w'.byPid pid = w.byPid pid := by
  obtain ⟨_, _, _, _, _, hby, _⟩ := h.process
  rw [hby, if_neg hne]

theorem waiting_other (hne : pid ≠ t.pid) (hw : Waiting w pid sem) : Waiting w' pid sem := by
  unfold Waiting at hw ⊢
  rwa [h.byPid_other hne, h.find_other hne]

theorem timedOut_other {t' : Timer} (hne : t'.pid ≠ t.pid)
    (hw : TimedOut w t' sem) : TimedOut w' t' sem := by
  obtain ⟨⟨r, hr, htimer⟩, hp⟩ := hw
  obtain ⟨r', hfired, _⟩ := h.fired
  refine ⟨⟨r, by rw [hfired]; exact List.mem_append_left _ hr, htimer⟩, ?_⟩
  rwa [h.byPid_other hne, h.find_other hne]

/-- The timer of a waiting process expires. -/
theorem timedOut (hw : Waiting w t.pid sem) : TimedOut w' t sem := by
  obtain ⟨p, hp, hstatus, haction, hinside, entry, hfind⟩ := hw
  obtain ⟨r, hfired, htimer⟩ := h.fired
  obtain ⟨q, p', hq, hin, hactive, hby, hcases⟩ := h.process
  obtain rfl : p = q := Option.some.inj (hp.symm.trans hq)
  refine ⟨⟨r, by rw [hfired]; exact List.mem_append_right _ (List.mem_singleton_self r), htimer⟩,
    p', by rw [hby, if_pos rfl], hactive, hin.trans hinside, { entry with timedOut := true },
      ?_, rfl⟩
  obtain ⟨hnone, _⟩ | ⟨s, _, l, hs, hmark, hsem⟩ := hcases
  · rw [hnone hstatus] at haction
    cases haction
  · cases haction.symm.trans hs
    rw [hsem]
    simp [markTimedOut_find hmark, hfind]

end Expires

/-- When its time has passed, a wait with a timeout has timed out. -/
theorem updateSleepQueue_times_out {p : Process} {ticks : Nat}
    (hlive : TimersLive (DeltaQueue.elements w.sleepQueue) w) (hp : w.byPid pid = some p)
    (hactive : p.status = .active) (hticks : ticks < 2 ^ 64) (helapsed : w.elapsedTicks < 2 ^ 64) :
    ∃ w', (updateSleepQueue (w.elapsedTicks + ticks)).run (blockOn w pid p sem (some ticks)) =
        .ok .done w' ∧ TimedOut w' ⟨pid, w.nextTimer⟩ sem := by
  -- every callback keeps the invariant, and the one of this timer ends the wait
  let inv : List Timer → World → Prop := fun timers v => TimersLive timers v ∧
    (Waiting v pid sem ∧ ⟨pid, w.nextTimer⟩ ∈ timers ∨ TimedOut v ⟨pid, w.nextTimer⟩ sem)
  have hpop : ∀ t rest v, inv (t :: rest) v →
      ∃ v', (sleepCallback t).run v = .ok () v' ∧ inv rest v' := by
    intro t rest v hinv
    obtain ⟨htimers, hcases⟩ := hinv
    obtain ⟨v', hrun, hrest⟩ := sleepCallback_ok htimers
    have hexpires := sleepCallback_expires hrun
    refine ⟨v', hrun, hrest, ?_⟩
    rcases hcases with ⟨hwaiting, hmem⟩ | htimed
    · rcases List.mem_cons.mp hmem with rfl | hmem
      · exact .inr (hexpires.timedOut hwaiting)
      · have hne : pid ≠ t.pid := fun heq =>
          (List.nodup_cons.mp htimers.nodup).1 (List.mem_map.mpr ⟨_, hmem, heq⟩)
        exact .inl ⟨hexpires.waiting_other hne hwaiting, hmem⟩
    · refine .inr (hexpires.timedOut_other (fun heq => ?_) htimed)
      obtain ⟨_, q, hq, hrunning, _⟩ := htimed
      have hblocked := (htimers.blockedOn t List.mem_cons_self).status (heq ▸ hq)
      simp [hrunning] at hblocked
  have hblock := @TimersLive.block _ _ sem _ (some ticks) hlive hp hactive
  have hstart : inv (DeltaQueue.elements (blockOn w pid p sem (some ticks)).sleepQueue)
      { blockOn w pid p sem (some ticks) with elapsedTicks := w.elapsedTicks + ticks } := by
    refine ⟨{ hblock with }, .inl ⟨?_, ?_⟩⟩
    · refine ⟨_, (blockOn_byPid hp sem (some ticks) pid).trans (if_pos rfl), rfl, rfl, rfl, ?_⟩
      have hsome : ((blockOn w pid p sem (some ticks)).semaphores sem).waitList.find?
          (·.proc = pid) ≠ none := by
        rw [blockOn_semaphores]
        simp
      exact Option.ne_none_iff_exists'.mp hsome
    · exact (DeltaQueue.elements_insert_perm _ _ _).mem_iff.mpr List.mem_cons_self
  have hduration : (w.elapsedTicks + ticks + (2 ^ 64 - w.elapsedTicks)) % 2 ^ 64 = ticks := by omega
  obtain ⟨queue, w', hrun, hlive', hcases⟩ := DeltaQueue.decrease_invariant inv hpop ticks hstart
  have hqueue : (blockOn w pid p sem (some ticks)).sleepQueue =
      DeltaQueue.insert ⟨pid, w.nextTimer⟩ ticks w.sleepQueue := rfl
  obtain ⟨popped, hsplit, hmem⟩ := DeltaQueue.decrease_insert_pops (hqueue ▸ hrun)
  refine ⟨{ w' with sleepQueue := queue }, ?_, ?_⟩
  · rw [updateSleepQueue, run_get_bind]
    rw [run_set_bind,
      show (blockOn w pid p sem (some ticks)).elapsedTicks = w.elapsedTicks from rfl,
      hduration, run_bind_ok hrun]
    rfl
  · refine hcases.resolve_left fun hleft => ?_
    have hnodup := hblock.nodup
    rw [hqueue, hsplit, List.map_append] at hnodup
    exact (List.nodup_append.mp hnodup).2.2 _ (List.mem_map_of_mem hmem) _
      (List.mem_map_of_mem hleft.2) rfl

/-- In a state with live timers, a wait with a timeout leaves the semaphore as it found it exactly
when it does not block. -/
theorem leaves_semaphore_iff {ticks : Nat} (hready : Ready w pid)
    (hlive : TimersLive (DeltaQueue.elements w.sleepQueue) w) (hticks : ticks < 2 ^ 64)
    (helapsed : w.elapsedTicks < 2 ^ 64) :
    LeavesSemaphore w pid sem ticks ↔ ¬ (w.semaphores sem).counter ≤ 0 := by
  refine ⟨fun hleaves hzero => ?_, fun hpos labels w₁ w₂ htimed _ => ?_⟩
  · obtain ⟨p, hp, hactive, hout⟩ := id hready
    obtain ⟨v, hupdate, hdone⟩ := updateSleepQueue_times_out hlive hp hactive hticks helapsed
    obtain ⟨hfired, q, hq, hrunning, hinside, entry, hfind, hflag⟩ := id hdone
    have hresume : (resume pid).run v = .ok (.returned .etimedout)
        ((v.setProcess pid { q with inside := none }).setSemaphore sem
          { v.semaphores sem with
            waitList := (v.semaphores sem).waitList.eraseP (·.proc = pid) }) := by
      have hprocess : (process pid).run v = .ok q v := process_eq_ok.mpr ⟨hq, rfl⟩
      rw [resume, run_bind_ok hprocess, run_get_bind]
      simp only [hinside, hfind, hflag, if_true]
      rfl
    have hwait : Step w (.wait pid sem (some ticks), .blocked)
        (blockOn w pid p sem (some ticks)) := by
      have hprocess : (process pid).run w = .ok p w := process_eq_ok.mpr ⟨hp, rfl⟩
      refine ⟨hready, ?_⟩
      rw [exec, wait, run_bind_ok hprocess, run_get_bind, if_pos hzero]
      rfl
    have hstep : Step (blockOn w pid p sem (some ticks))
        (.updateSleepQueue (w.elapsedTicks + ticks), .done) v := ⟨Nat.le_add_right _ _, hupdate⟩
    obtain ⟨w₂, hother, _⟩ := updateSleepQueue_ok hlive (w.elapsedTicks + ticks)
    have hwithout : Steps Step w [(.updateSleepQueue (w.elapsedTicks + ticks), .done)] w₂ :=
      .snoc (.refl w) ⟨Nat.le_add_right _ _, hother⟩
    have htimed : TimedOutRun w pid sem ticks
        [(.updateSleepQueue (w.elapsedTicks + ticks), .done)] _ :=
      ⟨_, [], _, _, _, rfl, hwait, .snoc (.refl _) hstep, by simp, hfired, .refl v,
        ⟨q, hq, hrunning, by simp [hinside]⟩, hresume⟩
    have hequal := hleaves _ _ _ htimed hwithout
    have hless := timed_out_wait_counter htimed hwithout
    grind
  · obtain ⟨_, _, _, _, _, _, ⟨_, hwait⟩, _⟩ := htimed.run
    obtain ⟨p, _, ⟨hzero, _⟩ | ⟨_, hout, _⟩⟩ := wait_ok hwait
    · exact absurd hzero hpos
    · cases hout

/-- With a positive counter there is nothing to wait for. -/
theorem leaves_semaphore_free :
    LeavesSemaphore { oneProcess with semaphores := fun _ => ⟨1, []⟩ } 1 0 10 :=
  (leaves_semaphore_iff ⟨{}, rfl, rfl, rfl⟩ (Idle.timersLive ⟨rfl, rfl, fun _ => rfl⟩) (by decide)
    (by decide)).mpr (by decide)

/-- A process waits for ten ticks in vain: the wait list is empty again, and the counter is at
minus one, where it is at zero without the wait. -/
theorem timed_out_wait_keeps_unit :
    Ready oneProcess 1 ∧ ∃ w₁ w₂, TimedOutRun oneProcess 1 0 10 [(.updateSleepQueue 10, .done)] w₁ ∧
      Steps Step oneProcess [(.updateSleepQueue 10, .done)] w₂ ∧
      w₁.semaphores 0 = ⟨-1, []⟩ ∧ w₂.semaphores 0 = ⟨0, []⟩ ∧
      ¬ LeavesSemaphore oneProcess 1 0 10 := by
  have htimed : ∃ w₁, TimedOutRun oneProcess 1 0 10 [(.updateSleepQueue 10, .done)] w₁ ∧
      w₁.semaphores 0 = ⟨-1, []⟩ :=
    ⟨_, ⟨_, [], _, _, _, rfl, ⟨⟨_, rfl, rfl, rfl⟩, rfl⟩,
      .snoc (.refl _) ⟨Nat.zero_le _, rfl⟩, by simp,
        ⟨⟨⟨1, 0⟩, some .ioWait, some 0⟩, by decide, rfl⟩,
      .refl _, ⟨_, rfl, rfl, by decide⟩, rfl⟩, rfl⟩
  have hwithout : ∃ w₂, Steps Step oneProcess [(.updateSleepQueue 10, .done)] w₂ ∧
      w₂.semaphores 0 = ⟨0, []⟩ := ⟨_, .snoc (.refl _) ⟨Nat.zero_le _, rfl⟩, rfl⟩
  obtain ⟨w₁, hrun₁, hsem₁⟩ := htimed
  obtain ⟨w₂, hrun₂, hsem₂⟩ := hwithout
  refine ⟨⟨{}, rfl, rfl, rfl⟩, w₁, w₂, hrun₁, hrun₂, hsem₁, hsem₂, fun hleaves => ?_⟩
  have hequal := hleaves _ _ _ hrun₁ hrun₂
  rw [hsem₁, hsem₂] at hequal
  simp at hequal

end LudOS.Tasking
