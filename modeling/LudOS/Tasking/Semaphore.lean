import Mathlib.Data.List.Nodup
import LudOS.Tasking.World

/-!
# Lost wakeups and over-admission

Runs of processes that share one semaphore through `wait()` without a timeout, `try_wait()` and
`post()`. What such a run does to the semaphore is seen through three numbers: the counter, the
length of the wait list, and how many of the waiting processes still have the status `IOWait`.
`SemStep` says how each section changes them, and `step_refines` that the kernel follows it.

`post()` wakes the process of the front entry, which stays in the list until that process resumes.
A second `post()` in between finds it there again and wakes nobody, so wakeups can be lost. The
semaphore admits no process too many all the same.
-/

namespace LudOS.Tasking

variable {c : Int32} {l : Int}

open Lib

/-- The sections of code that use a semaphore without timeouts. -/
inductive SemOp (sem : Nat) : Op → Prop where
  | wait (pid : Nat) : SemOp sem (.wait pid sem none)
  | tryWait (pid : Nat) : SemOp sem (.tryWait pid sem)
  | post : SemOp sem (.post sem)
  | resume (pid : Nat) : SemOp sem (.resume pid)

/-- The process of the entry still has the status `IOWait`. -/
def isBlocked (w : World) (entry : WaitEntry) : Bool :=
  (w.byPid entry.proc).any (·.status = .ioWait)

/-- A semaphore in numbers. -/
structure SemView where
  counter : Int32
  waiting : Nat
  blocked : Nat

/-- The numbers of a semaphore. -/
def semView (w : World) (sem : Nat) : SemView where
  counter := (w.semaphores sem).counter
  waiting := (w.semaphores sem).waitList.length
  blocked := (w.semaphores sem).waitList.countP (isBlocked w)

/-- How the sections change the numbers: a `post()` wakes a process or passes without effect on
the waiting ones. -/
inductive SemStep (sem : Nat) : SemView → Op × Outcome → SemView → Prop where
  | block {c : Int32} {n b : Nat} (pid : Nat) (h : c ≤ 0) :
      SemStep sem ⟨c, n, b⟩ (.wait pid sem none, .blocked) ⟨c - 1, n + 1, b + 1⟩
  | enter {c : Int32} {n b : Nat} (pid : Nat) (h : ¬ c ≤ 0) :
      SemStep sem ⟨c, n, b⟩ (.wait pid sem none, .returned .eok) ⟨c - 1, n, b⟩
  | take {c : Int32} {n b : Nat} (pid : Nat) (h : ¬ c ≤ 0) :
      SemStep sem ⟨c, n, b⟩ (.tryWait pid sem, .tried true) ⟨c - 1, n, b⟩
  | refuse {v : SemView} (pid : Nat) : SemStep sem v (.tryWait pid sem, .tried false) v
  | wake {c : Int32} {n b : Nat} : SemStep sem ⟨c, n, b + 1⟩ (.post sem, .done) ⟨c + 1, n, b⟩
  | pass {c : Int32} {n b : Nat} : SemStep sem ⟨c, n, b⟩ (.post sem, .done) ⟨c + 1, n, b⟩
  | leave {c : Int32} {n b : Nat} (pid : Nat) (code : Code) :
      SemStep sem ⟨c, n + 1, b⟩ (.resume pid, .returned code) ⟨c, n, b⟩

/-! ## The kernel follows the numbers -/

/-- The wait list holds each process at most once, and only processes inside of this semaphore's
`wait()`; nobody is inside of another blocking call. -/
structure Waiters (w : World) (sem : Nat) : Prop where
  nodup : ((w.semaphores sem).waitList.map (·.proc)).Nodup
  inside : ∀ entry ∈ (w.semaphores sem).waitList,
    ∃ p, w.byPid entry.proc = some p ∧ p.inside = some (.wait sem)
  only : ∀ pid p, w.byPid pid = some p → p.inside = none ∨ p.inside = some (.wait sem)

/-- A state in which nobody is blocked and the semaphore has no waiters. -/
structure Unused (w : World) (sem : Nat) : Prop where
  waitList : (w.semaphores sem).waitList = []
  outside : ∀ pid p, w.byPid pid = some p → p.inside = none

theorem Unused.waiters {w : World} {sem : Nat} (h : Unused w sem) : Waiters w sem where
  nodup := by simp [h.waitList]
  inside := by simp [h.waitList]
  only pid p hp := Or.inl (h.outside pid p hp)

variable {w w' : World} {sem pid : Nat}

section

variable (hw : Waiters w sem) {p : Process}

include hw

/-- A ready process is in no wait list. -/
theorem Waiters.not_mem_of_ready (hp : w.byPid pid = some p)
    (hout : p.inside = none) : ∀ entry ∈ (w.semaphores sem).waitList, entry.proc ≠ pid := by
  rintro entry hmem rfl
  obtain ⟨q, hq, hin⟩ := hw.inside entry hmem
  rw [hp] at hq
  cases hq
  rw [hout] at hin
  cases hin

/-- A blocking `wait()`. -/
theorem block_refines (hp : w.byPid pid = some p) (hout : p.inside = none) :
    Waiters (blockOn w pid p sem none) sem ∧ semView (blockOn w pid p sem none) sem =
        ⟨(semView w sem).counter - 1, (semView w sem).waiting + 1,
          (semView w sem).blocked + 1⟩ := by
  have hother := hw.not_mem_of_ready hp hout
  have hby := blockOn_byPid hp sem none
  have hsem : (blockOn w pid p sem none).semaphores sem =
      ⟨(w.semaphores sem).counter - 1, (w.semaphores sem).waitList ++ [⟨pid, false⟩]⟩ := by
    rw [blockOn_semaphores, Function.update_self]
  have hsame : ∀ entry ∈ (w.semaphores sem).waitList,
      (isBlocked (blockOn w pid p sem none) entry = true ↔ isBlocked w entry = true) := by
    intro entry hmem
    rw [isBlocked, isBlocked, hby, if_neg (hother entry hmem)]
  refine ⟨⟨?_, ?_, ?_⟩, ?_⟩
  · rw [hsem, List.map_append, List.nodup_append]
    refine ⟨hw.nodup, by simp, ?_⟩
    rintro a ha b hb rfl
    obtain ⟨entry, hmem, rfl⟩ := List.mem_map.mp ha
    exact hother entry hmem (by simpa using hb)
  · intro entry hmem
    rw [hsem, List.mem_append, List.mem_singleton] at hmem
    rcases hmem with hmem | rfl
    · obtain ⟨q, hq, hin⟩ := hw.inside entry hmem
      exact ⟨q, by rw [hby, if_neg (hother entry hmem), hq], hin⟩
    · exact ⟨_, by rw [hby, if_pos rfl], rfl⟩
  · intro q r hr
    rw [hby] at hr
    split at hr
    case isTrue =>
      cases hr
      exact Or.inr rfl
    case isFalse => exact hw.only q r hr
  · have hnew : isBlocked (blockOn w pid p sem none) ⟨pid, false⟩ = true := by
      rw [isBlocked, hby, if_pos rfl]
      rfl
    simp only [semView, hsem, List.length_append, List.length_singleton, List.countP_append,
      List.countP_congr hsame, List.countP_singleton, hnew, if_true]

/-- Only the counter of the semaphore changes. -/
theorem counter_refines (c : Int32) :
    Waiters (w.setSemaphore sem ⟨c, (w.semaphores sem).waitList⟩) sem ∧
      semView (w.setSemaphore sem ⟨c, (w.semaphores sem).waitList⟩) sem =
        ⟨c, (semView w sem).waiting, (semView w sem).blocked⟩ := by
  refine ⟨⟨?_, ?_, hw.only⟩, ?_⟩
  · simpa using hw.nodup
  · simpa using hw.inside
  · simp only [semView, World.semaphores_setSemaphore, Function.update_self]
    rfl

/-- Waking the front entry. -/
theorem wake_refines {entry : WaitEntry} {rest : List WaitEntry}
    (hlist : (w.semaphores sem).waitList = entry :: rest) (hp : w.byPid entry.proc = some p) :
    let w' := (w.setSemaphore sem ⟨(w.semaphores sem).counter + 1, entry :: rest⟩).setProcess
      entry.proc { p with status := .active, blockedOn := none }
    Waiters w' sem ∧ (semView w' sem).counter = (semView w sem).counter + 1 ∧
      (semView w' sem).waiting = (semView w sem).waiting ∧
      (semView w sem).blocked = (semView w' sem).blocked + if isBlocked w entry then 1 else 0 := by
  intro w'
  have hby : ∀ q, w'.byPid q = if q = entry.proc then
      some { p with status := .active, blockedOn := none } else w.byPid q :=
    World.byPid_setProcess hp _
  have hsem : w'.semaphores sem = ⟨(w.semaphores sem).counter + 1, entry :: rest⟩ := by
    simp [w']
  have hrest : ∀ e ∈ rest, e.proc ≠ entry.proc := by
    intro e he heq
    have hnodup := hw.nodup
    rw [hlist, List.map_cons, List.nodup_cons] at hnodup
    exact hnodup.1 (List.mem_map.mpr ⟨e, he, heq⟩)
  refine ⟨⟨?_, ?_, ?_⟩, ?_, ?_, ?_⟩
  · rw [hsem, ← hlist]
    exact hw.nodup
  · intro e he
    rw [hsem, ← hlist] at he
    obtain ⟨q, hq, hin⟩ := hw.inside e he
    rw [hby]
    split
    case isTrue heq =>
      rw [heq, hp] at hq
      cases hq
      exact ⟨_, rfl, hin⟩
    case isFalse => exact ⟨q, hq, hin⟩
  · intro q r hr
    rw [hby] at hr
    split at hr
    case isTrue heq =>
      cases hr
      exact hw.only entry.proc p hp
    case isFalse => exact hw.only q r hr
  · simp [semView, hsem]
  · simp [semView, hsem, hlist]
  · have hfront : isBlocked w' entry = false := by
      rw [isBlocked, hby, if_pos rfl]
      rfl
    have hsame : ∀ e ∈ rest, (isBlocked w' e = true ↔ isBlocked w e = true) := by
      intro e he
      rw [isBlocked, isBlocked, hby, if_neg (hrest e he)]
    simp only [semView, hsem, hlist, List.countP_cons, hfront, List.countP_congr hsame]
    simp

/-- An awake process that resumes. -/
theorem leave_refines {entry : WaitEntry} (hp : w.byPid pid = some p) (hactive : p.status = .active)
    (hfind : (w.semaphores sem).waitList.find? (·.proc = pid) = some entry) :
    let w' := (w.setProcess pid { p with inside := none }).setSemaphore sem
      ⟨(w.semaphores sem).counter, (w.semaphores sem).waitList.eraseP (·.proc = pid)⟩
    Waiters w' sem ∧ semView w sem = ⟨(semView w' sem).counter, (semView w' sem).waiting + 1,
      (semView w' sem).blocked⟩ := by
  intro w'
  have hby : ∀ q, w'.byPid q = if q = pid then some { p with inside := none } else w.byPid q :=
    World.byPid_setProcess hp _
  obtain ⟨e, l₁, l₂, hbefore, he, hlist, herase⟩ := List.exists_of_eraseP
    (List.mem_of_find?_eq_some hfind) (List.find?_some hfind)
  have hsem : w'.semaphores sem = ⟨(w.semaphores sem).counter, l₁ ++ l₂⟩ := by
    simp [w', herase]
  rw [decide_eq_true_eq] at he
  have hnodup := hw.nodup
  rw [hlist, List.map_append, List.map_cons, List.nodup_middle, List.nodup_cons, ← List.map_append,
    he] at hnodup
  have hother : ∀ x ∈ l₁ ++ l₂, x.proc ≠ pid := fun x hx heq =>
    hnodup.1 (List.mem_map.mpr ⟨x, hx, heq⟩)
  have hmem : ∀ x ∈ l₁ ++ l₂, x ∈ (w.semaphores sem).waitList := by
    intro x hx
    rw [hlist]
    simp only [List.mem_append, List.mem_cons] at hx ⊢
    tauto
  refine ⟨⟨?_, ?_, ?_⟩, ?_⟩
  · rw [hsem]
    exact hnodup.2
  · intro x hx
    rw [hsem] at hx
    obtain ⟨q, hq, hin⟩ := hw.inside x (hmem x hx)
    exact ⟨q, by rw [hby, if_neg (hother x hx), hq], hin⟩
  · intro q r hr
    rw [hby] at hr
    split at hr
    case isTrue =>
      cases hr
      exact Or.inl rfl
    case isFalse => exact hw.only q r hr
  · have hawake : isBlocked w e = false := by
      rw [isBlocked, he, hp]
      simp [hactive]
    have hsame : ∀ x ∈ l₁ ++ l₂, (isBlocked w' x = true ↔ isBlocked w x = true) := by
      intro x hx
      rw [isBlocked, isBlocked, hby, if_neg (hother x hx)]
    simp only [semView, hsem, hlist, List.countP_congr hsame, List.countP_append,
      List.countP_cons, List.length_append, List.length_cons, hawake]
    simp [Nat.add_assoc]

/-- What a `post()` does to the numbers: it wakes the front entry if that is still blocked. -/
theorem post_refines {out : Outcome} (h : (post sem).run w = .ok out w') :
    Waiters w' sem ∧ w'.processes.length = w.processes.length ∧
      ((semView w' sem = ⟨(semView w sem).counter + 1, (semView w sem).waiting,
          (semView w sem).blocked⟩ ∧
        ∀ entry ∈ (w.semaphores sem).waitList.head?, isBlocked w entry = false) ∨
      (semView w sem).blocked = (semView w' sem).blocked + 1 ∧
        semView w' sem = ⟨(semView w sem).counter + 1, (semView w sem).waiting,
          (semView w' sem).blocked⟩) := by
  obtain ⟨_, ⟨hnil, rfl⟩ | ⟨entry, rest, p, hlist, hp, rfl⟩⟩ := post_ok h
  · have hsame := counter_refines hw ((w.semaphores sem).counter + 1)
    rw [hnil] at hsame
    exact ⟨hsame.1, rfl, Or.inl ⟨hsame.2, by simp [hnil]⟩⟩
  · obtain ⟨hw', hcounter, hwaiting, hblocked⟩ := wake_refines hw hlist hp
    refine ⟨hw', World.length_processes_setProcess _ _ _, ?_⟩
    rw [← hcounter, ← hwaiting]
    by_cases hfront : isBlocked w entry
    · rw [if_pos hfront] at hblocked
      exact Or.inr ⟨hblocked, rfl⟩
    · rw [if_neg hfront] at hblocked
      refine Or.inl ⟨by rw [hblocked]; rfl, ?_⟩
      simpa [hlist] using hfront

/-- Every section follows the numbers. -/
theorem step_refines {label : Op × Outcome} (hop : SemOp sem label.1) (hstep : Step w label w') :
    Waiters w' sem ∧ w'.processes.length = w.processes.length ∧
      SemStep sem (semView w sem) label (semView w' sem) := by
  obtain ⟨op, out⟩ := label
  obtain ⟨hen, hrun⟩ := hstep
  cases hop with
  | wait pid =>
    obtain ⟨p, hp, ⟨hle, rfl, rfl⟩ | ⟨hgt, rfl, rfl⟩⟩ := wait_ok hrun
    · obtain ⟨q, hq, _, hout⟩ := hen
      obtain rfl : p = q := Option.some.inj (hp.symm.trans hq)
      obtain ⟨hw', hview⟩ := block_refines hw hp hout
      refine ⟨hw', World.length_processes_setProcess _ _ _, ?_⟩
      rw [hview]
      exact .block pid hle
    · obtain ⟨hw', hview⟩ := counter_refines hw ((w.semaphores sem).counter - 1)
      refine ⟨hw', rfl, ?_⟩
      rw [hview]
      exact .enter pid hgt
  | tryWait pid =>
    obtain ⟨_, rfl, rfl⟩ | ⟨hgt, rfl, rfl⟩ := tryWait_ok hrun
    · exact ⟨hw, rfl, .refuse pid⟩
    · obtain ⟨hw', hview⟩ := counter_refines hw ((w.semaphores sem).counter - 1)
      refine ⟨hw', rfl, ?_⟩
      rw [hview]
      exact .take pid hgt
  | post =>
    obtain ⟨rfl, _⟩ := post_ok hrun
    obtain ⟨hw', hlen, ⟨hview, _⟩ | ⟨hblocked, hview⟩⟩ := post_refines hw hrun
    · refine ⟨hw', hlen, ?_⟩
      rw [hview]
      exact .pass
    · refine ⟨hw', hlen, ?_⟩
      have hbefore : semView w sem = ⟨(semView w sem).counter, (semView w sem).waiting,
          (semView w' sem).blocked + 1⟩ := by rw [← hblocked]
      rw [hview, hbefore]
      exact .wake
  | resume pid =>
    obtain ⟨q, hq, hactive, hin⟩ := hen
    obtain ⟨p, hp, hcases⟩ := resume_ok hrun
    obtain rfl : p = q := Option.some.inj (hp.symm.trans hq)
    have honly := hw.only pid p hp
    obtain ⟨hnone, _⟩ | ⟨hsleep, _⟩ | ⟨sem', entry, hinside, hfind, rfl, rfl⟩ := hcases
    · exact absurd hnone hin
    · simp [hsleep] at honly
    · obtain rfl : sem' = sem := by simpa [hinside] using honly
      obtain ⟨hw', hview⟩ := leave_refines hw hp hactive hfind
      refine ⟨hw', World.length_processes_setProcess _ _ _, ?_⟩
      rw [hview]
      exact .leave pid _

end

/-! ## Lost wakeups -/

/-- A process is still blocked in the wait list while the counter shows a free place. -/
def LostWakeup (w : World) (sem : Nat) : Prop :=
  0 ≤ (w.semaphores sem).counter ∧ ∃ entry ∈ (w.semaphores sem).waitList, isBlocked w entry = true

/-- A `post()` that finds blocked processes finds one of them at the front, and a `wait()` does not
take the counter below the smallest `int`. -/
def WakesFront (sem : Nat) (w : World) (label : Op × Outcome) : Prop :=
  match label.1 with
  | .post _ =>
    (∃ entry ∈ (w.semaphores sem).waitList.head?, isBlocked w entry = true) ∨
      ∀ entry ∈ (w.semaphores sem).waitList, isBlocked w entry = false
  | .wait _ _ _ => (w.semaphores sem).counter ≠ Int32.minValue
  | _ => True

/-- No more processes are blocked than the counter is below zero. -/
def Covered (v : SemView) : Prop := (v.blocked : Int) ≤ max 0 (-v.counter.toInt)

theorem toInt_sub_one (h : -2 ^ 31 < c.toInt) : (c - 1).toInt = c.toInt - 1 := by
  have hhigh := c.toInt_lt
  rw [Int32.toInt_sub, show (1 : Int32).toInt = 1 from rfl]
  exact Int.bmod_eq_of_le (by omega) (by omega)

theorem le_zero_iff : c ≤ 0 ↔ c.toInt ≤ 0 := Int32.le_iff_toInt_le

theorem toInt_add_one (h : c.toInt < 0) : (c + 1).toInt = c.toInt + 1 := by
  have hlow := c.le_toInt
  rw [Int32.toInt_add, show (1 : Int32).toInt = 1 from rfl]
  exact Int.bmod_eq_of_le (by omega) (by omega)

/-- A `post()` that meets the condition keeps the blocked processes covered. -/
theorem covered_post {out : Outcome} (hw : Waiters w sem)
    (hguard : WakesFront sem w (.post sem, out)) (hrun : (post sem).run w = .ok out w')
    (h : Covered (semView w sem)) : Covered (semView w' sem) := by
  obtain ⟨_, _, ⟨hview, hfront⟩ | ⟨hblocked, hview⟩⟩ := post_refines hw hrun
  · -- nobody is woken: the condition leaves only the case that nobody is blocked
    have hnone : (semView w sem).blocked = 0 := by
      rcases hguard with ⟨entry, hmem, hb⟩ | hnone
      · rw [hfront entry hmem] at hb
        cases hb
      · exact List.countP_eq_zero.mpr fun entry hmem => by simp [hnone entry hmem]
    rw [hview, Covered, hnone]
    omega
  · rw [Covered, hblocked] at h
    have hneg : (semView w sem).counter.toInt < 0 := by omega
    rw [hview]
    show ((semView w' sem).blocked : Int) ≤ max 0 (-((semView w sem).counter + 1).toInt)
    rw [toInt_add_one hneg]
    omega

/-- A section that meets the condition keeps the blocked processes covered. -/
theorem covered_step {label : Op × Outcome} (hw : Waiters w sem) (hop : SemOp sem label.1)
    (hguard : WakesFront sem w label) (hstep : Step w label w') (h : Covered (semView w sem)) :
    Covered (semView w' sem) := by
  obtain ⟨_, _, hnumbers⟩ := step_refines hw hop hstep
  obtain ⟨op, out⟩ := label
  cases hop with
  | post => exact covered_post hw hguard hstep.2 h
  | wait pid =>
    have hlow : -2 ^ 31 < (semView w sem).counter.toInt := by
      have hne : (w.semaphores sem).counter.toInt ≠ -2 ^ 31 := fun heq =>
        hguard (Int32.toInt_inj.mp heq)
      exact lt_of_le_of_ne (Int32.le_toInt _) (Ne.symm hne)
    generalize semView w sem = v at *
    generalize semView w' sem = v' at *
    cases hnumbers with
    | block _ hle =>
      rw [le_zero_iff] at hle
      simp only [Covered, toInt_sub_one hlow, Nat.cast_add, Nat.cast_one] at h ⊢
      omega
    | enter _ hgt =>
      simp only [Covered, toInt_sub_one hlow] at h ⊢
      omega
  | tryWait pid =>
    generalize semView w sem = v at *
    generalize semView w' sem = v' at *
    cases hnumbers with
    | @take c _ _ _ hgt =>
      rw [le_zero_iff] at hgt
      have hlow : -2 ^ 31 < c.toInt := by omega
      simp only [Covered, toInt_sub_one hlow] at h ⊢
      omega
    | refuse => exact h
  | resume pid =>
    generalize semView w sem = v at *
    cases hnumbers with
    | leave _ code => exact h

/-- No wakeup is lost in a run in which every `post()` that finds blocked processes finds one of
them at the front and no `wait()` wraps the counter around. -/
theorem no_lost_wakeup {w₀ w : World} {sem : Nat} {labels : List (Op × Outcome)}
    (h₀ : Unused w₀ sem)
    (hrun : Steps (Guarded (fun w label => SemOp sem label.1 ∧ WakesFront sem w label) Step)
      w₀ labels w) : ¬ LostWakeup w sem := by
  have hinv : Waiters w sem ∧ Covered (semView w sem) := by
    refine Steps.invariant (fun w => Waiters w sem ∧ Covered (semView w sem))
      (fun s label t hs hstep => ?_) hrun ⟨h₀.waiters, ?_⟩
    · obtain ⟨⟨hop, hguard⟩, hstep⟩ := hstep
      exact ⟨(step_refines hs.1 hop hstep).1, covered_step hs.1 hop hguard hstep hs.2⟩
    · simp [Covered, semView, h₀.waitList]
  rintro ⟨hcounter, hblocked⟩
  have hpos : 0 < (semView w sem).blocked := List.countP_pos_iff.mpr hblocked
  have hle := hinv.2
  have hnonneg : 0 ≤ (semView w sem).counter.toInt := Int32.le_iff_toInt_le.mp hcounter
  rw [Covered] at hle
  omega

/-- The idle process and two others, all active, with every semaphore at zero. -/
def twoProcesses : World := { processes := [some {}, some {}, some {}] }

theorem unused_two_processes : Unused twoProcesses 0 := by
  refine ⟨rfl, fun pid p hp => ?_⟩
  match pid with
  | 0 | 1 | 2 =>
    cases hp
    rfl
  | pid + 3 => cases hp

/-- One process blocks and is woken again. -/
theorem no_lost_wakeup_single :
    ∃ w, Steps (Guarded (fun w label => SemOp 0 label.1 ∧ WakesFront 0 w label) Step) twoProcesses
        [(.wait 1 0 none, .blocked), (.post 0, .done)] w ∧ ¬ LostWakeup w 0 := by
  have hrun : ∃ w, Steps (Guarded (fun w label => SemOp 0 label.1 ∧ WakesFront 0 w label) Step)
      twoProcesses [(.wait 1 0 none, .blocked), (.post 0, .done)] w :=
    ⟨_, .snoc (.snoc (.refl _) ⟨⟨.wait 1, show (0 : Int32) ≠ _ by decide⟩, ⟨_, rfl, rfl, rfl⟩, rfl⟩)
      ⟨⟨.post, Or.inl ⟨_, rfl, rfl⟩⟩, trivial, rfl⟩⟩
  obtain ⟨w, hrun⟩ := hrun
  exact ⟨w, hrun, no_lost_wakeup unused_two_processes hrun⟩

/-- Two processes block and `post()` is called twice before the first of them resumes: both calls
find its entry at the front, and the second process stays blocked with the counter back at
zero. -/
theorem two_posts_lose_wakeup : ∃ w, Unused twoProcesses 0 ∧ Steps Step twoProcesses
        [(.wait 1 0 none, .blocked), (.wait 2 0 none, .blocked), (.post 0, .done), (.post 0, .done)]
        w ∧ LostWakeup w 0 := by
  refine ⟨_, unused_two_processes,
    .snoc (.snoc (.snoc (.snoc (.refl _) ⟨⟨_, rfl, rfl, rfl⟩, rfl⟩) ⟨⟨_, rfl, rfl, rfl⟩, rfl⟩)
      ⟨trivial, rfl⟩) ⟨trivial, rfl⟩, by decide, ⟨2, false⟩, by decide, by decide⟩

/-! ## Over-admission -/

/-- The label is a `wait()` that returned, at once or after blocking, or a `try_wait()` that
returned true. -/
def admits : Op × Outcome → Bool
  | (.wait _ _ _, .returned _) | (.resume _, .returned _) | (.tryWait _ _, .tried true) => true
  | _ => false

/-- The label is a `post()`. -/
def posts : Op × Outcome → Bool
  | (.post _, _) => true
  | _ => false

/-- The label lowers the counter. -/
def takes : Op × Outcome → Bool
  | (.wait _ _ _, _) | (.tryWait _ _, .tried true) => true
  | _ => false

/-- The counter as an unbounded number after the given labels. -/
def level (v : Int) (labels : List (Op × Outcome)) : Int :=
  v + labels.countP posts - labels.countP takes

/-- What holds along every run: the counter is the level modulo the width of an `int`, the blocked
processes make up for a negative level, and every `wait()` that took a place has returned or is
still in the list. -/
structure Balanced (v : Int) (labels : List (Op × Outcome)) (s : SemView) : Prop where
  counter : s.counter.toInt = (level v labels).bmod (2 ^ 32)
  blocked : 0 ≤ level v labels + s.blocked
  admitted : labels.countP admits + s.waiting = labels.countP takes

/-- A positive counter means a positive level, as long as the level has not left the range of an
`int` downwards. -/
theorem level_pos (hlow : -2 ^ 31 ≤ l) (h : 0 < l.bmod (2 ^ 32)) : 0 < l := by
  by_contra hneg
  rw [Int.bmod_eq_of_le (by omega) (by omega)] at h
  exact hneg h

theorem level_append (v : Int) (labels : List (Op × Outcome)) (label : Op × Outcome) :
    level v (labels ++ [label]) = level v labels +
      (if posts label then 1 else 0) - (if takes label then 1 else 0) := by
  simp only [level, List.countP_append, List.countP_singleton]
  push_cast
  omega

theorem toInt_sub_one_bmod (h : c.toInt = l.bmod (2 ^ 32)) :
    (c - 1).toInt = (l - 1).bmod (2 ^ 32) := by
  rw [Int32.toInt_sub, h, show (1 : Int32).toInt = 1 from rfl]
  exact Int.bmod_sub_bmod

theorem toInt_add_one_bmod (h : c.toInt = l.bmod (2 ^ 32)) :
    (c + 1).toInt = (l + 1).bmod (2 ^ 32) := by
  rw [Int32.toInt_add, h, show (1 : Int32).toInt = 1 from rfl]
  exact Int.bmod_add_bmod

/-- Every section keeps the balance while fewer processes are blocked than there are pids. -/
theorem balanced_step {v : Int} {labels : List (Op × Outcome)} {label : Op × Outcome}
    {s t : SemView} (hnum : SemStep sem s label t) (hbound : s.blocked ≤ 2 ^ 31)
    (h : Balanced v labels s) : Balanced v (labels ++ [label]) t := by
  obtain ⟨hcounter, hblocked, hadmitted⟩ := h
  have hlevel := level_append v labels label
  have hadmits : (labels ++ [label]).countP admits =
      labels.countP admits + if admits label then 1 else 0 := by
    rw [List.countP_append, List.countP_singleton]
  have htakes : (labels ++ [label]).countP takes =
      labels.countP takes + if takes label then 1 else 0 := by
    rw [List.countP_append, List.countP_singleton]
  cases hnum with
  | block pid hc =>
    simp only [posts, takes, admits, if_true, if_false, Bool.false_eq_true, Int.add_zero]
      at hlevel hadmits htakes
    refine ⟨hlevel ▸ toInt_sub_one_bmod hcounter, ?_, ?_⟩
    all_goals simp only at *; omega
  | enter pid hc | take pid hc =>
    -- the counter is positive, so the level is
    rw [le_zero_iff, not_le, hcounter] at hc
    have hpos := level_pos (by simp only at *; omega) hc
    simp only [posts, takes, admits, if_true, if_false, Bool.false_eq_true, Int.add_zero]
      at hlevel hadmits htakes
    refine ⟨hlevel ▸ toInt_sub_one_bmod hcounter, ?_, ?_⟩
    all_goals simp only at *; omega
  | refuse pid =>
    simp only [posts, takes, admits, if_false, Bool.false_eq_true, Int.add_zero, Int.sub_zero]
      at hlevel hadmits htakes
    exact ⟨hlevel ▸ hcounter, by omega, by omega⟩
  | wake | pass =>
    simp only [posts, takes, admits, if_true, if_false, Bool.false_eq_true, Int.sub_zero]
      at hlevel hadmits htakes
    refine ⟨hlevel ▸ toInt_add_one_bmod hcounter, ?_, ?_⟩
    all_goals simp only at *; omega
  | leave pid code =>
    simp only [posts, takes, admits, if_true, if_false, Bool.false_eq_true, Int.add_zero,
      Int.sub_zero] at hlevel hadmits htakes
    refine ⟨hlevel ▸ hcounter, ?_, ?_⟩
    all_goals simp only at *; omega

/-- No more processes wait than the process table has places. -/
theorem Waiters.waiting_le (hw : Waiters w sem) : (semView w sem).waiting ≤ w.processes.length := by
  have hsub : (w.semaphores sem).waitList.map (·.proc) ⊆ List.range w.processes.length := by
    intro q hq
    obtain ⟨entry, hmem, rfl⟩ := List.mem_map.mp hq
    obtain ⟨p, hp, _⟩ := hw.inside entry hmem
    exact List.mem_range.mpr (World.lt_length_of_byPid hp)
  simpa [semView] using (List.subperm_of_subset hw.nodup hsub).length_le

/-- A semaphore never over-admits: along every run, the calls of `wait()` that have returned and
those of `try_wait()` that returned true are at most the initial counter and the calls of `post()`
together. Pids are nonnegative `int`s, which bounds the process table. -/
theorem never_over_admits {w₀ w : World} {sem : Nat} {labels : List (Op × Outcome)}
    (h₀ : Unused w₀ sem) (hpids : w₀.processes.length ≤ 2 ^ 31)
    (hv : 0 ≤ (w₀.semaphores sem).counter)
    (hrun : Steps (Guarded (fun _ label => SemOp sem label.1) Step) w₀ labels w) :
    (labels.countP admits : Int) ≤ (w₀.semaphores sem).counter.toInt + labels.countP posts := by
  have hinit : Balanced (w₀.semaphores sem).counter.toInt [] (semView w₀ sem) := by
    have hhigh := (w₀.semaphores sem).counter.toInt_lt
    have hlow : 0 ≤ (w₀.semaphores sem).counter.toInt := Int32.le_iff_toInt_le.mp hv
    refine ⟨?_, ?_, by simp [semView, h₀.waitList]⟩
    · simp only [level, List.countP_nil, Nat.cast_zero, Int.add_zero, Int.sub_zero, semView]
      exact (Int.bmod_eq_of_le (by omega) (by omega)).symm
    · simp only [level, List.countP_nil, Nat.cast_zero, Int.add_zero, Int.sub_zero]
      omega
  have hinv : (Waiters w sem ∧ w.processes.length = w₀.processes.length) ∧
      Balanced (w₀.semaphores sem).counter.toInt labels (semView w sem) := by
    refine Steps.history (fun labels w => (Waiters w sem ∧
      w.processes.length = w₀.processes.length) ∧
      Balanced (w₀.semaphores sem).counter.toInt labels (semView w sem))
      (fun es s label t hs hstep => ?_) hrun ⟨⟨h₀.waiters, rfl⟩, hinit⟩
    obtain ⟨⟨hw, hlen⟩, hbal⟩ := hs
    obtain ⟨hw', hlen', hnum⟩ := step_refines hw hstep.1 hstep.2
    have hblocked : (semView s sem).blocked ≤ (semView s sem).waiting := List.countP_le_length
    have hwaiting := hw.waiting_le
    exact ⟨⟨hw', hlen'.trans hlen⟩, balanced_step hnum (by omega) hbal⟩
  obtain ⟨⟨hw, _⟩, _, hblocked, hadmitted⟩ := hinv
  have hle : (semView w sem).blocked ≤ (semView w sem).waiting := List.countP_le_length
  rw [level] at hblocked
  omega

/-- A run with one `post()`: process 1 waits for it, and process 2 asks too early. -/
def oneAdmitted : List (Op × Outcome) :=
  [(.wait 1 0 none, .blocked), (.tryWait 2 0, .tried false), (.post 0, .done),
    (.resume 1, .returned .eok)]

/-- One process is admitted by a `post()`; the other one stays out. -/
theorem never_over_admits_single :
    (∃ w, Steps (Guarded (fun _ label => SemOp 0 label.1) Step) twoProcesses oneAdmitted w) ∧
      oneAdmitted.countP admits = 1 ∧
      (oneAdmitted.countP admits : Int) ≤
        (twoProcesses.semaphores 0).counter.toInt + oneAdmitted.countP posts := by
  have hrun : ∃ w,
      Steps (Guarded (fun _ label => SemOp 0 label.1) Step) twoProcesses oneAdmitted w :=
    ⟨_, .snoc (.snoc (.snoc (.snoc (.refl _) ⟨.wait 1, ⟨_, rfl, rfl, rfl⟩, rfl⟩)
      ⟨.tryWait 2, ⟨_, rfl, rfl, rfl⟩, rfl⟩) ⟨.post, trivial, rfl⟩)
      ⟨.resume 1, ⟨_, rfl, rfl, by simp⟩, rfl⟩⟩
  refine ⟨hrun, by decide, ?_⟩
  obtain ⟨w, hrun⟩ := hrun
  exact never_over_admits unused_two_processes (by decide) (by decide) hrun

end LudOS.Tasking
