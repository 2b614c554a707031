import LudOS.Lib.Circle
import LudOS.Tasking.ProcessTable

/-!
# The scheduler

`find_next_pid` of `tasking/scheduler.cpp`. The process table is a circle: the search goes on behind
the current process, and once more when it has found the idle task, which has the pid 0. A loop that
does not end within the rounds it is given has no result.

`find_next_pid_fair` says that the search ends at an active process, and that an active process is
selected after at most one selection for every slot of the table. Statuses may change between two
selections, and slots may be emptied and filled.
-/

namespace LudOS.Tasking.ProcessTable

open Lib Circle

/-- `Process::highest_pid`. -/
def Table.highestPid (t : Table) : Nat := t.processes.length

/-- The process exists and `process_ready` holds of it. -/
def Table.processReady (t : Table) (pid : Nat) : Bool :=
  match t.byPid pid with
  | some p => p.status = .active
  | none => false

/-- One of the loops of `find_next_pid`. -/
def Table.nextReady (t : Table) (rounds pid : Nat) : Option Nat :=
  search t.highestPid t.processReady rounds pid

/-- `tasking::find_next_pid`. -/
def Table.findNextPid (t : Table) (rounds current : Nat) : Option Nat := do
  let nextPid ← t.nextReady rounds current
  if nextPid = 0 then t.nextReady rounds nextPid else pure nextPid

/-- There is an active process with the pid. -/
def Table.Active (t : Table) (pid : Nat) : Prop := ∃ p, t.byPid pid = some p ∧ p.status = .active

/-- The process with the pid `next` is selected while the one with the pid `current` runs. -/
def Table.Selects (t : Table) (current next : Nat) : Prop :=
  ∃ rounds, t.findNextPid rounds current = some next

section

variable {t : Table} {rounds current next pid : Nat}

theorem processReady_iff : t.processReady pid = true ↔ t.Active pid := by
  unfold Table.processReady Table.Active
  cases t.byPid pid <;> simp

theorem Table.Active.lt_highestPid (h : t.Active pid) : pid < t.highestPid := by
  obtain ⟨p, hp, -⟩ := h
  exact lt_length_of_slot hp

/-! ## One selection -/

/-- A loop ends at the first active process behind the one it starts at. -/
theorem nextReady_eq_some (hactive : t.Active pid)
    (hrun : t.nextReady rounds current = some next) :
    t.Active next ∧ ∀ q, t.Active q →
      gap t.highestPid current next ≤ gap t.highestPid current q := by
  have hsize := Nat.zero_lt_of_lt hactive.lt_highestPid
  obtain ⟨-, hready, hfirst⟩ := search_eq_some hsize hrun
  refine ⟨processReady_iff.mp hready, ?_⟩
  intro q hq
  exact hfirst q hq.lt_highestPid (processReady_iff.mpr hq)

theorem exists_nextReady (hactive : t.Active pid) (current : Nat) :
    ∃ next, ∀ rounds, t.highestPid ≤ rounds → t.nextReady rounds current = some next := by
  have hlt := hactive.lt_highestPid
  obtain ⟨next, hrun⟩ := exists_search hlt (processReady_iff.mpr hactive)
    (gap_le (Nat.zero_lt_of_lt hlt) current pid)
  exact ⟨next, fun rounds hle => search_mono hle hrun⟩

/-- The two ways in which a process is selected. -/
theorem findNextPid_eq_some (hrun : t.findNextPid rounds current = some next) :
    (t.nextReady rounds current = some next ∧ next ≠ 0) ∨
      (t.nextReady rounds current = some 0 ∧ t.nextReady rounds 0 = some next) := by
  obtain ⟨first, hfirst, hrun⟩ := Option.bind_eq_some_iff.mp hrun
  split at hrun
  case isTrue heq =>
    rw [heq] at hfirst hrun
    exact .inr ⟨hfirst, hrun⟩
  case isFalse hne =>
    cases hrun
    exact .inl ⟨hfirst, hne⟩

/-- The search ends when there is an active process. -/
theorem exists_findNextPid (hactive : t.Active pid) (current : Nat) :
    ∃ next, ∀ rounds, t.highestPid ≤ rounds → t.findNextPid rounds current = some next := by
  obtain ⟨first, hfirst⟩ := exists_nextReady hactive current
  obtain ⟨second, hsecond⟩ := exists_nextReady hactive first
  refine ⟨if first = 0 then second else first, ?_⟩
  intro rounds hle
  unfold Table.findNextPid
  rw [hfirst rounds hle, Option.bind_eq_bind, Option.bind_some]
  split
  case isTrue => exact hsecond rounds hle
  case isFalse => rfl

theorem Table.Selects.active (hactive : t.Active pid) (h : t.Selects current next) :
    t.Active next := by
  obtain ⟨rounds, hrun⟩ := h
  obtain ⟨hrun, -⟩ | ⟨-, hrun⟩ := findNextPid_eq_some hrun
  · exact (nextReady_eq_some hactive hrun).1
  · exact (nextReady_eq_some hactive hrun).1

/-- From the idle task on, every other process comes before the idle task. -/
theorem gap_zero_lt {size : Nat} (hpid : pid < size) (hne : pid ≠ 0) :
    gap size 0 pid < gap size 0 0 := by
  have hsize := Nat.zero_lt_of_lt hpid
  simp only [gap_eq hpid, gap_eq hsize, Nat.zero_mod]
  grind

/-- The idle task is selected only if there is nothing else to do. -/
theorem Table.Selects.eq_zero (h : t.Selects current 0) (hactive : t.Active pid) : pid = 0 := by
  obtain ⟨rounds, hrun⟩ := h
  obtain ⟨-, hne⟩ | ⟨-, hrun⟩ := findNextPid_eq_some hrun
  · exact absurd rfl hne
  · by_contra hpid
    have hle := (nextReady_eq_some hactive hrun).2 pid hactive
    have hlt := gap_zero_lt hactive.lt_highestPid hpid
    omega

/-- A selection does not go past an active process, also when it passes the idle task. -/
theorem Table.Selects.gap_le (h : t.Selects current next) (hactive : t.Active pid)
    (hpid : pid ≠ 0) : gap t.highestPid current next ≤ gap t.highestPid current pid := by
  have hlt := hactive.lt_highestPid
  have hnext := (h.active hactive).lt_highestPid
  obtain ⟨rounds, hrun⟩ := id h
  obtain ⟨hrun, -⟩ | ⟨hidle, hrun⟩ := findNextPid_eq_some hrun
  · exact (nextReady_eq_some hactive hrun).2 pid hactive
  · obtain ⟨-, hfirst⟩ := nextReady_eq_some hactive hidle
    have hzero := Nat.zero_lt_of_lt hlt
    have hsecond := (nextReady_eq_some hactive hrun).2 pid hactive
    have hne : next ≠ 0 := by
      intro heq
      subst heq
      exact hpid (h.eq_zero hactive)
    have hbehind : ∀ q, t.Active q → q ≠ 0 →
        gap t.highestPid current q = gap t.highestPid current 0 + gap t.highestPid 0 q := by
      intro q hq hq0
      have hlt' := Nat.lt_of_le_of_ne (hfirst q hq)
        fun heq => hq0 (gap_inj hzero hq.lt_highestPid heq).symm
      exact gap_add hzero hq.lt_highestPid hlt'
    rw [hbehind next (h.active hactive) hne, hbehind pid hactive hpid]
    exact Nat.add_le_add_left hsecond _

/-! ## Runs -/

end

/-- The search ends at an active process, which is the idle task only if no other process is active.
A process that stays active is selected within as many selections as the table has slots. -/
theorem find_next_pid_fair (size : Nat) :
    (∀ t current, Table.highestPid t = size → (∃ pid, t.Active pid) →
      ∃ next, (∀ rounds, size ≤ rounds → t.findNextPid rounds current = some next) ∧
        t.Active next ∧ (next = 0 → ∀ pid, t.Active pid → pid = 0)) ∧
    (∀ (tables : Nat → Table) (current : Nat → Nat) (pid : Nat), pid ≠ 0 →
      (∀ i, (tables i).highestPid = size ∧ (tables i).Active pid) →
      (∀ i < size, (tables i).Selects (current i) (current (i + 1))) →
      ∃ i < size, current (i + 1) = pid) := by
  refine ⟨?_, ?_⟩
  · intro t current hsize hsome
    obtain ⟨pid, hactive⟩ := hsome
    obtain ⟨next, hrun⟩ := exists_findNextPid hactive current
    have hselects : t.Selects current next := ⟨_, hrun _ (Nat.le_refl _)⟩
    refine ⟨next, hsize ▸ hrun, hselects.active hactive, ?_⟩
    intro hzero q hq
    subst hzero
    exact hselects.eq_zero hq
  · intro tables current pid hpid hactive hselects
    have hlt : pid < size := (hactive 0).1 ▸ (hactive 0).2.lt_highestPid
    refine exists_visit hlt ?_ (gap_le (Nat.zero_lt_of_lt hlt) _ _)
    intro i hi
    obtain ⟨hsize, hactive⟩ := hactive i
    have hmove := hselects i hi
    rw [← hsize]
    exact ⟨(hmove.active hactive).lt_highestPid, hmove.gap_le hactive hpid⟩

/-- A table with the idle task and one more process, both active. -/
def idleAndOne : Table := ⟨[some {}, some {}], fun _ => 0⟩

/-- The process is selected after the idle task and after itself. -/
theorem find_next_pid_fair_two : (∃ next, idleAndOne.Selects 0 next ∧ idleAndOne.Active next) ∧
    ∃ i < 2, (fun j => min j 1) (i + 1) = 1 := by
  obtain ⟨hselects, hvisits⟩ := find_next_pid_fair 2
  refine ⟨?_, ?_⟩
  · obtain ⟨next, hrun, hactive, -⟩ := hselects idleAndOne 0 rfl ⟨0, {}, rfl, rfl⟩
    exact ⟨next, ⟨2, hrun 2 (Nat.le_refl 2)⟩, hactive⟩
  · refine hvisits (fun _ => idleAndOne) (fun j => min j 1) 1 (by decide)
      (fun _ => ⟨rfl, {}, rfl, rfl⟩) ?_
    intro i hi
    obtain rfl | rfl : i = 0 ∨ i = 1 := by omega
    · exact ⟨2, rfl⟩
    · exact ⟨2, rfl⟩

end LudOS.Tasking.ProcessTable
