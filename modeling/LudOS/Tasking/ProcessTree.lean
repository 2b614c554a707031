import LudOS.Tasking.ProcessTable

/-!
# The process tree

Parents and children name each other, and an entry in `wait_entries` names a process that waits.
`Consistent` is the invariant: every `clone`, `wait_for` and `release_zombie`, and every `kill` of a
process that does not wait for a child, goes through and keeps it.

`kill` of a process that waits leaves its entry behind. The entry then names a zombie, later nobody
or another process that got the pid, and the assertion in the `kill` of the child fails.

The list of children of a zombie is out of date, as its children have been handed to the init
process. Nothing reads it any more, so the tree is that of the live processes.
-/

namespace LudOS.Tasking.ProcessTable

open Lib

/-- A live process is waited for by another one. -/
def Awaits (t : Table) (c waiting : Nat) : Prop :=
  ∃ p, t.byPid c = some p ∧ p.status ≠ .zombie ∧ ∃ e ∈ p.waitEntries, e.processWaiting = waiting

/-- Parents and children name each other. -/
structure Tree (t : Table) : Prop where
  init : ∃ p, t.byPid 0 = some p ∧ p.status ≠ .zombie ∧ p.parent = 0
  parents : ∀ c p, t.byPid c = some p → t.Live p.parent ∧ (c ≠ 0 → p.parent ≠ c)
  children : ∀ p q, t.byPid p = some q → q.status ≠ .zombie →
    ∀ c, c ∈ q.children ↔ c ≠ 0 ∧ ∃ r, t.byPid c = some r ∧ r.parent = p
  nodup : ∀ p q, t.byPid p = some q → q.status ≠ .zombie → q.children.Nodup

/-- What is said about every reachable table: the tree is one, and whoever is in a list of waiting
processes waits. -/
structure Sound (t : Table) : Prop where
  tree : Tree t
  waiting : ∀ c w, Awaits t c w → ∃ p, t.byPid w = some p ∧ p.status = .childWait

/-- The invariant: a process waits for one other process, and is listed there once. -/
structure Consistent (t : Table) : Prop extends Sound t where
  apart : ∀ c c' w, Awaits t c w → Awaits t c' w → c = c'
  other : ∀ c w, Awaits t c w → w ≠ c
  once : ∀ c p, t.byPid c = some p → p.status ≠ .zombie →
    (p.waitEntries.map (·.processWaiting)).Nodup

/-- The operations on the tree. -/
inductive TreeOp where
  | clone (proc : Nat) (flags : UInt32)
  | waitFor (current child statusPhys : Nat)
  | kill (pid : Nat) (errCode : Int)
  | releaseZombie (current pid : Nat)

/-- Run one operation. -/
def perform : TreeOp → TableAction Unit
  | .clone proc flags => do
    let _ ← clone proc flags
  | .waitFor current child statusPhys => waitFor current child statusPhys
  | .kill pid errCode => kill pid errCode
  | .releaseZombie current pid => releaseZombie current pid

/-- A live process is cloned, a running one waits for a child, a live one other than the init
process is killed, and a zombie that does not run is released. -/
def Allowed (t : Table) : TreeOp → Prop
  | .clone proc _ => t.Live proc
  | .waitFor current child _ =>
    ∃ p, t.byPid current = some p ∧ p.status = .active ∧ child ∈ p.children
  | .kill pid _ => pid ≠ 0 ∧ t.Live pid
  | .releaseZombie current pid =>
    current ≠ pid ∧ ∃ p, t.byPid pid = some p ∧ p.status = .zombie

/-- No process is killed while it waits for another one. -/
def Spares (t : Table) : TreeOp → Prop
  | .kill pid _ => ∀ c, ¬ Awaits t c pid
  | _ => True

/-- Every operation goes through and leaves a sound table. -/
def StaysSound : Table → List TreeOp → Prop
  | _, [] => True
  | t, op :: ops => Allowed t op →
      ∃ t', (perform op).run t = .ok () t' ∧ Sound t' ∧ StaysSound t' ops

/-- No operation of the sequence kills a process that waits at that time. -/
def SparesWaiting : Table → List TreeOp → Prop
  | _, [] => True
  | t, op :: ops => Allowed t op → Spares t op ∧ SparesWaiting (endState (perform op) t) ops

section

variable {t t' : Table} {pid : Nat} {p : Process}

theorem Tree.init_live (h : Tree t) : t.Live 0 := by
  obtain ⟨p, hp, hlive, _⟩ := h.init
  exact ⟨p, hp, hlive⟩

theorem Table.Live.isSome (h : t.Live pid) : (t.byPid pid).isSome = true := by
  obtain ⟨p, hp, _⟩ := h
  simp [hp]

/-! ## `kill` -/

section

variable {q : Nat} {r : Process}

@[simp] theorem afterKill_parent :
    (afterKill pid p q r).parent = if q ∈ p.children then 0 else r.parent := by
  unfold afterKill woken reparented
  split <;> split <;> rfl

@[simp] theorem afterKill_children :
    (afterKill pid p q r).children = if q = 0 then r.children ++ p.children else r.children := by
  unfold afterKill woken reparented
  split <;> split <;> rfl

@[simp] theorem afterKill_waitEntries : (afterKill pid p q r).waitEntries = r.waitEntries := by
  unfold afterKill woken reparented
  split <;> split <;> rfl

theorem afterKill_status : (afterKill pid p q r).status =
      if q ∈ p.waitEntries.map (·.processWaiting) then .active
      else if q = pid then .zombie else r.status := by
  unfold afterKill woken reparented
  split
  · rfl
  · split <;> rfl

end

/-- The table after `kill`, for a process that nobody but others waits for. -/
structure Killed (t : Table) (pid : Nat) (p : Process) (t' : Table) : Prop where
  byPid : ∀ q, t'.byPid q = (t.byPid q).map (afterKill pid p q)
  self : t.byPid pid = some p
  live : p.status ≠ .zombie
  waiting : ∀ w ∈ p.waitEntries.map (·.processWaiting),
    w ≠ pid ∧ ∃ r, t.byPid w = some r ∧ r.status = .childWait

namespace Killed

variable (h : Killed t pid p t') {q : Nat}

include h

theorem cases {r' : Process} (hr : t'.byPid q = some r') :
    ∃ r, t.byPid q = some r ∧ r' = afterKill pid p q r := by
  rw [h.byPid, Option.map_eq_some_iff] at hr
  obtain ⟨r, hr, rfl⟩ := hr
  exact ⟨r, hr, rfl⟩

/-- Who is alive afterwards was alive before and is not the killed process. -/
theorem alive_iff {r : Process} (hr : t.byPid q = some r) :
    (afterKill pid p q r).status ≠ .zombie ↔ q ≠ pid ∧ r.status ≠ .zombie := by
  rw [afterKill_status]
  by_cases hw : q ∈ p.waitEntries.map (·.processWaiting)
  · obtain ⟨hne, w, hq, hstatus⟩ := h.waiting q hw
    cases hr.symm.trans hq
    simp [hw, hne, hstatus]
  · grind

theorem live_of_ne (hq : t.Live q) (hne : q ≠ pid) : t'.Live q := by
  obtain ⟨r, hr, hlive⟩ := hq
  exact ⟨_, (h.byPid q).trans (congrArg _ hr), (h.alive_iff hr).mpr ⟨hne, hlive⟩⟩

/-- The children of a killed process are handed over, and the tree stays one. -/
theorem tree (ht : Tree t) (hpid : pid ≠ 0) : Tree t' := by
  have hkids := ht.children pid p h.self h.live
  refine ⟨?_, fun c r' hr' => ?_, fun q r' hr' hlive c => ?_, fun q r' hr' hlive => ?_⟩
  · obtain ⟨i, hi, hlive, hparent⟩ := ht.init
    refine ⟨_, (h.byPid 0).trans (congrArg _ hi), (h.alive_iff hi).mpr ⟨Ne.symm hpid, hlive⟩, ?_⟩
    simp [hparent]
  · obtain ⟨r, hr, rfl⟩ := h.cases hr'
    obtain ⟨hlive, hne⟩ := ht.parents c r hr
    rw [afterKill_parent]
    split
    case isTrue hc => exact ⟨h.live_of_ne ht.init_live (Ne.symm hpid), Ne.symm⟩
    case isFalse hc =>
      refine ⟨h.live_of_ne hlive fun heq => ?_, hne⟩
      rcases eq_or_ne c 0 with rfl | hc0
      · obtain ⟨i, hi, _, hparent⟩ := ht.init
        cases hr.symm.trans hi
        exact hpid (heq.symm.trans hparent)
      · exact hc ((hkids c).mpr ⟨hc0, r, hr, heq⟩)
  · obtain ⟨r, hr, rfl⟩ := h.cases hr'
    obtain ⟨hne, hlive⟩ := (h.alive_iff hr).mp hlive
    -- the children of the killed process now have the init process as their parent
    have hnew : (c ≠ 0 ∧ ∃ r', t'.byPid c = some r' ∧ r'.parent = q) ↔
        c ≠ 0 ∧ ∃ s, t.byPid c = some s ∧ (if c ∈ p.children then 0 else s.parent) = q := by
      simp [h.byPid]
    have hold := ht.children q r hr hlive c
    rw [hnew, afterKill_children]
    by_cases hc : c ∈ p.children
    all_goals grind
  · obtain ⟨r, hr, rfl⟩ := h.cases hr'
    obtain ⟨hne, hlive⟩ := (h.alive_iff hr).mp hlive
    rw [afterKill_children]
    split
    case isTrue hq0 =>
      refine List.nodup_append.mpr ⟨ht.nodup q r hr hlive, ht.nodup pid p h.self h.live, ?_⟩
      rintro c hc _ hc' rfl
      obtain ⟨_, s, hs, hparent⟩ := (ht.children q r hr hlive c).mp hc
      grind
    case isFalse => exact ht.nodup q r hr hlive

theorem awaits {c w : Nat} : Awaits t' c w ↔ Awaits t c w ∧ c ≠ pid := by
  constructor
  · rintro ⟨r', hr', hlive, hentry⟩
    obtain ⟨r, hr, rfl⟩ := h.cases hr'
    obtain ⟨hne, hlive⟩ := (h.alive_iff hr).mp hlive
    exact ⟨⟨r, hr, hlive, by simpa using hentry⟩, hne⟩
  · rintro ⟨⟨r, hr, hlive, hentry⟩, hne⟩
    exact ⟨_, (h.byPid c).trans (congrArg _ hr), (h.alive_iff hr).mpr ⟨hne, hlive⟩,
      by simpa using hentry⟩

/-- The kill of a process that waits for nobody keeps the invariant. -/
theorem consistent (ht : Consistent t) (hpid : pid ≠ 0)
    (hspares : ∀ c, ¬ Awaits t c pid) : Consistent t' := by
  refine ⟨⟨h.tree ht.tree hpid, fun c w hw => ?_⟩, fun c c' w hw hw' => ?_, fun c w hw => ?_,
    fun c r' hr' hlive => ?_⟩
  · obtain ⟨hw, hne⟩ := h.awaits.mp hw
    obtain ⟨r, hr, hstatus⟩ := ht.waiting c w hw
    refine ⟨_, (h.byPid w).trans (congrArg _ hr), ?_⟩
    have hwne : w ≠ pid := fun heq => hspares c (heq ▸ hw)
    have hnot : w ∉ p.waitEntries.map (·.processWaiting) := fun hmem => by
      obtain ⟨e, he, heq⟩ := List.mem_map.mp hmem
      exact hne (ht.apart c pid w hw ⟨p, h.self, h.live, e, he, heq⟩)
    rw [afterKill_status, if_neg hnot, if_neg hwne, hstatus]
  · exact ht.apart c c' w (h.awaits.mp hw).1 (h.awaits.mp hw').1
  · exact ht.other c w (h.awaits.mp hw).1
  · obtain ⟨r, hr, rfl⟩ := h.cases hr'
    rw [afterKill_waitEntries]
    exact ht.once c r hr ((h.alive_iff hr).mp hlive).2

end Killed

/-- In a consistent table every live process but the first can be killed. -/
theorem kill_ok (ht : Consistent t) (hpid : pid ≠ 0) (hp : t.byPid pid = some p)
    (hlive : p.status ≠ .zombie) (errCode : Int) :
    ∃ t', (kill pid errCode).run t = .ok () t' ∧ Killed t pid p t' ∧
      (∀ e ∈ p.waitEntries, ∀ w, t.byPid e.processWaiting = some w →
        t'.memory w.waitstatusPhys = errCode) ∧
      ∀ a, t'.memory a = t.memory a ∨ t'.memory a = errCode := by
  have hwait : ∀ e ∈ p.waitEntries, e.processWaiting ≠ pid ∧
      ∃ w, t.byPid e.processWaiting = some w ∧ w.status = .childWait := fun e he =>
    have hawaits : Awaits t pid e.processWaiting := ⟨p, hp, hlive, e, he, rfl⟩
    ⟨ht.other pid _ hawaits, ht.waiting pid _ hawaits⟩
  have hchildren : ∀ c ∈ p.children, (t.byPid c).isSome = true := fun c hc => by
    obtain ⟨_, r, hr, _⟩ := (ht.tree.children pid p hp hlive c).mp hc
    simp [hr]
  obtain ⟨t', hrun, hby, hwritten, hkept⟩ := run_kill errCode hpid hp ht.tree.init_live.isSome
    hchildren (ht.tree.parents pid p hp).1.isSome hwait (ht.once pid p hp hlive)
  refine ⟨t', hrun, ⟨hby, hp, hlive, fun w hw => ?_⟩, hwritten, hkept⟩
  obtain ⟨e, he, rfl⟩ := List.mem_map.mp hw
  exact hwait e he

/-! ## `clone` -/

/-- The table after `clone`: a process with a new pid, the last child of `target`. -/
structure Cloned (t : Table) (n target tgid : Nat) (t' : Table) : Prop where
  byPid : ∀ q, t'.byPid q =
    if q = n then some { tgid := tgid, parent := target }
    else (t.byPid q).map fun r => if q = target then { r with children := r.children ++ [n] } else r
  free : t.byPid n = none
  live : t.Live target

section

variable {n target tgid q : Nat} {r : Process}

namespace Cloned

variable (h : Cloned t n target tgid t')

include h

theorem ne (hr : t.byPid q = some r) : q ≠ n := fun heq => by
  rw [heq, h.free] at hr
  cases hr

/-- An old process differs in its list of children at most. -/
theorem old (hr : t.byPid q = some r) :
    t'.byPid q = some { r with
      children := if q = target then r.children ++ [n] else r.children } := by
  rw [h.byPid, if_neg (h.ne hr), hr]
  by_cases hq : q = target <;> simp [hq]

theorem cases {r' : Process} (hr' : t'.byPid q = some r') :
    (q = n ∧ r' = { tgid := tgid, parent := target }) ∨ ∃ r, t.byPid q = some r ∧
      r' = { r with children := if q = target then r.children ++ [n] else r.children } := by
  by_cases hq : q = n
  · rw [h.byPid, if_pos hq] at hr'
    exact .inl ⟨hq, (Option.some.inj hr').symm⟩
  · cases hr : t.byPid q with
    | none => simp [h.byPid, hq, hr] at hr'
    | some r =>
      rw [h.old hr] at hr'
      exact .inr ⟨r, rfl, (Option.some.inj hr').symm⟩

theorem alive (hq : t.Live q) : t'.Live q := by
  obtain ⟨r, hr, hstatus⟩ := hq
  exact ⟨_, h.old hr, hstatus⟩

theorem awaits {w : Nat} (hw : Awaits t' q w) : Awaits t q w := by
  obtain ⟨r', hr', hlive, hentry⟩ := hw
  obtain ⟨_, rfl⟩ | ⟨r, hr, rfl⟩ := h.cases hr'
  · simp at hentry
  · exact ⟨r, hr, hlive, hentry⟩

/-- The new process is the only new child. -/
theorem child_iff {c : Nat} : (∃ r', t'.byPid c = some r' ∧ r'.parent = q) ↔
      (c = n ∧ q = target) ∨ ∃ r, t.byPid c = some r ∧ r.parent = q := by
  constructor
  · rintro ⟨r', hr', hparent⟩
    obtain ⟨rfl, rfl⟩ | ⟨r, hr, rfl⟩ := h.cases hr'
    · exact .inl ⟨rfl, hparent.symm⟩
    · exact .inr ⟨r, hr, hparent⟩
  · rintro (⟨rfl, rfl⟩ | ⟨r, hr, hparent⟩)
    · exact ⟨_, (h.byPid c).trans (if_pos rfl), rfl⟩
    · exact ⟨_, h.old hr, hparent⟩

theorem tree (ht : Tree t) : Tree t' := by
  obtain ⟨g, hg, _⟩ := id h.live
  refine ⟨?_, fun c r' hr' => ?_, fun q r' hr' hlive c => ?_, fun q r' hr' hlive => ?_⟩
  · obtain ⟨i, hi, hlive, hparent⟩ := ht.init
    exact ⟨_, h.old hi, hlive, hparent⟩
  · obtain ⟨rfl, rfl⟩ | ⟨r, hr, rfl⟩ := h.cases hr'
    · exact ⟨h.alive h.live, fun _ => h.ne hg⟩
    · obtain ⟨hlive, hne⟩ := ht.parents c r hr
      exact ⟨h.alive hlive, hne⟩
  · rw [h.child_iff]
    obtain ⟨rfl, rfl⟩ | ⟨r, hr, rfl⟩ := h.cases hr'
    · -- nobody had the new pid as a parent
      have hno : ¬ ∃ r, t.byPid c = some r ∧ r.parent = q := fun ⟨r, hr, heq⟩ => by
        obtain ⟨s, hs, _⟩ := (ht.parents c r hr).1
        exact h.ne hs heq
      simp [hno, Ne.symm (h.ne hg)]
    · have hkids := ht.children q r hr hlive c
      obtain ⟨i, hi, _⟩ := ht.init
      by_cases hq : q = target
      · by_cases hc : c = n
        · simp [hq, hc, Ne.symm (h.ne hi)]
        · simp [hq, hc, hkids]
      · simp [hq, hkids]
  · obtain ⟨rfl, rfl⟩ | ⟨r, hr, rfl⟩ := h.cases hr'
    · exact List.nodup_nil
    · have hnodup := ht.nodup q r hr hlive
      show (if q = target then r.children ++ [n] else r.children).Nodup
      split
      case isFalse => exact hnodup
      case isTrue =>
        refine List.nodup_append.mpr ⟨hnodup, by simp, ?_⟩
        rintro c hc _ hmem rfl
        obtain ⟨_, s, hs, _⟩ := (ht.children q r hr hlive c).mp hc
        exact h.ne hs (List.mem_singleton.mp hmem)

theorem consistent (ht : Consistent t) : Consistent t' := by
  refine ⟨⟨h.tree ht.tree, fun c w hw => ?_⟩, fun c c' w hw hw' => ?_, fun c w hw => ?_,
    fun c r' hr' hlive => ?_⟩
  · obtain ⟨r, hr, hwait⟩ := ht.waiting c w (h.awaits hw)
    exact ⟨_, h.old hr, hwait⟩
  · exact ht.apart c c' w (h.awaits hw) (h.awaits hw')
  · exact ht.other c w (h.awaits hw)
  · obtain ⟨_, rfl⟩ | ⟨r, hr, rfl⟩ := h.cases hr'
    · exact List.nodup_nil
    · exact ht.once c r hr hlive

end Cloned

end

theorem clone_ok (ht : Consistent t) {proc : Nat} (hlive : t.Live proc) (flags : UInt32) :
    ∃ n t', (clone proc flags).run t = .ok n t' ∧ Consistent t' := by
  obtain ⟨p, hp, hstatus⟩ := hlive
  have htarget : t.Live (cloneTarget proc p flags) := by
    unfold cloneTarget
    split
    · exact (ht.tree.parents proc p hp).1
    · exact ⟨p, hp, hstatus⟩
  obtain ⟨n, tgid, t', hrun, _, hfree, hby⟩ := run_clone hp htarget.isSome
  exact ⟨n, t', hrun, Cloned.consistent ⟨hby, hfree, htarget⟩ ht⟩

/-! ## `wait_for` -/

/-- The table after a running process has started to wait. -/
structure StartsWaiting (t : Table) (current child statusPhys : Nat) (t' : Table) : Prop where
  byPid : ∀ q, t'.byPid q = (t.byPid q).map fun r =>
    { r with
      waitEntries := if q = child then r.waitEntries ++ [⟨current, statusPhys⟩] else r.waitEntries
      waitstatusPhys := if q = current then statusPhys else r.waitstatusPhys
      status := if q = current then .childWait else r.status }
  active : ∃ p, t.byPid current = some p ∧ p.status = .active

section

variable {current child statusPhys q : Nat} {r : Process}

namespace StartsWaiting

variable (h : StartsWaiting t current child statusPhys t')

include h

/-- Nobody dies or comes alive. -/
theorem alive_iff (hr : t.byPid q = some r) :
    (if q = current then Status.childWait else r.status) ≠ .zombie ↔ r.status ≠ .zombie := by
  obtain ⟨p, hp, hactive⟩ := h.active
  by_cases hq : q = current
  · grind
  · simp [hq]

theorem cases {r' : Process} (hr' : t'.byPid q = some r') :
    ∃ r, t.byPid q = some r ∧ r'.parent = r.parent ∧ r'.children = r.children ∧
      (r'.status ≠ .zombie ↔ r.status ≠ .zombie) ∧
      r'.status = (if q = current then .childWait else r.status) ∧ r'.waitEntries =
        if q = child then r.waitEntries ++ [⟨current, statusPhys⟩] else r.waitEntries := by
  rw [h.byPid, Option.map_eq_some_iff] at hr'
  obtain ⟨r, hr, rfl⟩ := hr'
  exact ⟨r, hr, rfl, rfl, h.alive_iff hr, rfl, rfl⟩

theorem live_iff : t'.Live q ↔ t.Live q := by
  constructor
  · rintro ⟨r', hr', hlive⟩
    obtain ⟨r, hr, _, _, halive, _⟩ := h.cases hr'
    exact ⟨r, hr, halive.mp hlive⟩
  · rintro ⟨r, hr, hlive⟩
    exact ⟨_, (h.byPid q).trans (congrArg _ hr), (h.alive_iff hr).mpr hlive⟩

theorem tree (ht : Tree t) : Tree t' := by
  refine ⟨?_, fun c r' hr' => ?_, fun q r' hr' hlive c => ?_, fun q r' hr' hlive => ?_⟩
  · obtain ⟨i, hi, hlive, hparent⟩ := ht.init
    exact ⟨_, (h.byPid 0).trans (congrArg _ hi), (h.alive_iff hi).mpr hlive, hparent⟩
  · obtain ⟨r, hr, hparent, _⟩ := h.cases hr'
    rw [hparent, h.live_iff]
    exact ht.parents c r hr
  · obtain ⟨r, hr, _, hkids, halive, _⟩ := h.cases hr'
    rw [hkids, ht.children q r hr (halive.mp hlive)]
    simp [h.byPid]
  · obtain ⟨r, hr, _, hkids, halive, _⟩ := h.cases hr'
    rw [hkids]
    exact ht.nodup q r hr (halive.mp hlive)

/-- Only the process that starts to wait is new in a list. -/
theorem awaits {w : Nat} (hw : Awaits t' q w) : Awaits t q w ∨ q = child ∧ w = current := by
  obtain ⟨r', hr', hlive, e, he, rfl⟩ := hw
  obtain ⟨r, hr, _, _, halive, _, hentries⟩ := h.cases hr'
  rw [hentries] at he
  by_cases hq : q = child
  · rw [if_pos hq] at he
    rcases List.mem_append.mp he with he | he
    · exact .inl ⟨r, hr, halive.mp hlive, e, he, rfl⟩
    · grind
  · rw [if_neg hq] at he
    exact .inl ⟨r, hr, halive.mp hlive, e, he, rfl⟩

theorem consistent (ht : Consistent t) (hne : current ≠ child) : Consistent t' := by
  obtain ⟨p, hp, hactive⟩ := h.active
  -- a running process is in no list
  have hfree : ∀ c, ¬ Awaits t c current := fun c hc => by
    obtain ⟨r, hr, hwait⟩ := ht.waiting c current hc
    cases hp.symm.trans hr
    rw [hactive] at hwait
    cases hwait
  refine ⟨⟨h.tree ht.tree, fun c w hw => ?_⟩, fun c c' w hw hw' => ?_, fun c w hw => ?_,
    fun c r' hr' hlive => ?_⟩
  · rcases h.awaits hw with hw | ⟨_, rfl⟩
    · obtain ⟨r, hr, hwait⟩ := ht.waiting c w hw
      exact ⟨_, (h.byPid w).trans (congrArg _ hr), by simp [hwait]⟩
    · exact ⟨_, (h.byPid w).trans (congrArg _ hp), by simp⟩
  · rcases h.awaits hw with hw | ⟨rfl, rfl⟩ <;> rcases h.awaits hw' with hw' | ⟨rfl, heq⟩
    · exact ht.apart c c' w hw hw'
    · exact absurd (heq ▸ hw) (hfree c)
    · exact absurd hw' (hfree c')
    · rfl
  · rcases h.awaits hw with hw | ⟨rfl, rfl⟩
    · exact ht.other c w hw
    · exact hne
  · obtain ⟨r, hr, _, _, halive, _, hentries⟩ := h.cases hr'
    have honce := ht.once c r hr (halive.mp hlive)
    rw [hentries]
    split
    case isFalse => exact honce
    case isTrue =>
      rw [List.map_append]
      refine List.nodup_append.mpr ⟨honce, by simp, ?_⟩
      rintro w hw _ hmem rfl
      obtain ⟨e, he, heq⟩ := List.mem_map.mp hw
      have hcurrent : w = current := by simpa using hmem
      exact hfree c ⟨r, hr, halive.mp hlive, e, he, heq.trans hcurrent⟩

end StartsWaiting

end

theorem waitFor_ok (ht : Consistent t) {current child : Nat} (hp : t.byPid current = some p)
    (hactive : p.status = .active) (hchild : child ∈ p.children) (statusPhys : Nat) :
    ∃ t', (waitFor current child statusPhys).run t = .ok () t' ∧ Consistent t' ∧
      StartsWaiting t current child statusPhys t' ∧ t'.memory = t.memory := by
  obtain ⟨hchild0, r, hr, hparent⟩ :=
    (ht.tree.children current p hp (by simp [hactive]) child).mp hchild
  obtain ⟨t', hrun, hmem, hby⟩ := run_waitFor statusPhys hr hp
  have hstarts : StartsWaiting t current child statusPhys t' := ⟨hby, p, hp, hactive⟩
  refine ⟨t', hrun, hstarts.consistent ht ?_, hstarts, hmem⟩
  rw [← hparent]
  exact (ht.tree.parents child r hr).2 hchild0

/-! ## `release_zombie` -/

/-- The table after a zombie has been released. -/
structure Released (t : Table) (pid parent : Nat) (t' : Table) : Prop where
  byPid : ∀ x, t'.byPid x = if x = pid then none else (t.byPid x).map fun r =>
    if x = parent then { r with children := r.children.filter (· ≠ pid) } else r
  zombie : ∃ p, t.byPid pid = some p ∧ p.status = .zombie ∧ p.parent = parent

section

variable {parent q : Nat} {r : Process}

namespace Released

variable (h : Released t pid parent t')

include h

theorem old (hr : t.byPid q = some r) (hne : q ≠ pid) :
    t'.byPid q = some { r with
      children := if q = parent then r.children.filter (· ≠ pid) else r.children } := by
  rw [h.byPid, if_neg hne, hr]
  by_cases hq : q = parent <;> simp [hq]

theorem cases {r' : Process} (hr' : t'.byPid q = some r') : q ≠ pid ∧ ∃ r, t.byPid q = some r ∧
      r' = { r with children :=
          if q = parent then r.children.filter (· ≠ pid) else r.children } := by
  by_cases hq : q = pid
  · simp [h.byPid, hq] at hr'
  · cases hr : t.byPid q with
    | none => simp [h.byPid, hq, hr] at hr'
    | some r =>
      rw [h.old hr hq] at hr'
      exact ⟨hq, r, rfl, (Option.some.inj hr').symm⟩

theorem ne_of_alive (hr : t.byPid q = some r) (hlive : r.status ≠ .zombie) : q ≠ pid := by
  rintro rfl
  obtain ⟨p, hp, hzombie, _⟩ := h.zombie
  cases hr.symm.trans hp
  exact hlive hzombie

theorem alive (hq : t.Live q) : t'.Live q := by
  obtain ⟨r, hr, hlive⟩ := hq
  exact ⟨_, h.old hr (h.ne_of_alive hr hlive), hlive⟩

theorem awaits {w : Nat} (hw : Awaits t' q w) : Awaits t q w := by
  obtain ⟨r', hr', hlive, hentry⟩ := hw
  obtain ⟨_, r, hr, rfl⟩ := h.cases hr'
  exact ⟨r, hr, hlive, hentry⟩

theorem tree (ht : Tree t) : Tree t' := by
  refine ⟨?_, fun c r' hr' => ?_, fun q r' hr' hlive c => ?_, fun q r' hr' hlive => ?_⟩
  · obtain ⟨i, hi, hlive, hparent⟩ := ht.init
    exact ⟨_, h.old hi (h.ne_of_alive hi hlive), hlive, hparent⟩
  · obtain ⟨_, r, hr, rfl⟩ := h.cases hr'
    obtain ⟨hlive, hne⟩ := ht.parents c r hr
    exact ⟨h.alive hlive, hne⟩
  · obtain ⟨_, r, hr, rfl⟩ := h.cases hr'
    have hkids := ht.children q r hr hlive c
    have hchild : (∃ r', t'.byPid c = some r' ∧ r'.parent = q) ↔
        c ≠ pid ∧ ∃ s, t.byPid c = some s ∧ s.parent = q := by
      constructor
      · rintro ⟨s', hs', hparent⟩
        obtain ⟨hne, s, hs, rfl⟩ := h.cases hs'
        exact ⟨hne, s, hs, hparent⟩
      · rintro ⟨hne, s, hs, hparent⟩
        exact ⟨_, h.old hs hne, hparent⟩
    rw [hchild]
    by_cases hq : q = parent
    · grind
    · -- the released process is not a child of this one
      have hother : c ∈ r.children → c ≠ pid := fun hmem heq => by
        obtain ⟨_, s, hs, hparent⟩ := hkids.mp hmem
        obtain ⟨p, hp, _, hp'⟩ := h.zombie
        grind
      grind
  · obtain ⟨_, r, hr, rfl⟩ := h.cases hr'
    have hnodup := ht.nodup q r hr hlive
    grind

theorem consistent (ht : Consistent t) : Consistent t' := by
  refine ⟨⟨h.tree ht.tree, fun c w hw => ?_⟩, fun c c' w hw hw' => ?_, fun c w hw => ?_,
    fun c r' hr' hlive => ?_⟩
  · obtain ⟨r, hr, hwait⟩ := ht.waiting c w (h.awaits hw)
    exact ⟨_, h.old hr (h.ne_of_alive hr (by simp [hwait])), hwait⟩
  · exact ht.apart c c' w (h.awaits hw) (h.awaits hw')
  · exact ht.other c w (h.awaits hw)
  · obtain ⟨_, r, hr, rfl⟩ := h.cases hr'
    exact ht.once c r hr hlive

end Released

end

/-- In a tree every zombie that does not run can be released. -/
theorem releaseZombie_ok (ht : Tree t) {current : Nat} (hcurrent : current ≠ pid)
    (hp : t.byPid pid = some p) (hzombie : p.status = .zombie) :
    ∃ t', (releaseZombie current pid).run t = .ok () t' ∧ Released t pid p.parent t' ∧
      t'.memory = t.memory := by
  obtain ⟨q, hq, hlive⟩ := (ht.parents pid p hp).1
  have hpid : pid ≠ 0 := by
    rintro rfl
    obtain ⟨i, hi, hlive, _⟩ := ht.init
    cases hp.symm.trans hi
    exact hlive hzombie
  obtain ⟨t', hrun, hmem, hby⟩ := run_releaseZombie hcurrent hp hzombie hq
    ((ht.children p.parent q hq hlive pid).mpr ⟨hpid, p, hp, rfl⟩)
  exact ⟨t', hrun, ⟨hby, p, hp, hzombie, rfl⟩, hmem⟩

/-! ## Sequences -/

/-- An operation that kills no waiting process goes through and keeps the invariant. -/
theorem perform_ok (ht : Consistent t) {op : TreeOp} (hallowed : Allowed t op)
    (hspares : Spares t op) : ∃ t', (perform op).run t = .ok () t' ∧ Consistent t' := by
  cases op with
  | clone proc flags =>
    obtain ⟨n, t', hrun, ht'⟩ := clone_ok ht hallowed flags
    exact ⟨t', by rw [perform, run_bind_ok hrun]; rfl, ht'⟩
  | waitFor current child statusPhys =>
    obtain ⟨p, hp, hactive, hchild⟩ := hallowed
    obtain ⟨t', hrun, ht', _⟩ := waitFor_ok ht hp hactive hchild statusPhys
    exact ⟨t', hrun, ht'⟩
  | kill pid errCode =>
    obtain ⟨hpid, p, hp, hlive⟩ := hallowed
    obtain ⟨t', hrun, hkilled, _⟩ := kill_ok ht hpid hp hlive errCode
    exact ⟨t', hrun, hkilled.consistent ht hpid hspares⟩
  | releaseZombie current pid =>
    obtain ⟨hcurrent, p, hp, hzombie⟩ := hallowed
    obtain ⟨t', hrun, hreleased, _⟩ := releaseZombie_ok ht.tree hcurrent hp hzombie
    exact ⟨t', hrun, hreleased.consistent ht⟩

/-- Once a process that waits has been killed, an entry names a zombie. -/
theorem not_sound_of_killed {errCode : Int} (ht : Consistent t) (hpid : pid ≠ 0)
    (hlive : t.Live pid) (hrun : (kill pid errCode).run t = .ok () t') {c : Nat}
    (hc : Awaits t c pid) : ¬ Sound t' := by
  obtain ⟨p, hp, hstatus⟩ := hlive
  obtain ⟨t₁, hrun₁, hkilled, _⟩ := kill_ok ht hpid hp hstatus errCode
  cases hrun₁.symm.trans hrun
  intro hsound
  obtain ⟨r, hr, hwait⟩ := hsound.waiting c pid
    (hkilled.awaits.mpr ⟨hc, Ne.symm (ht.other c pid hc)⟩)
  obtain ⟨s, hs, rfl⟩ := hkilled.cases hr
  cases hp.symm.trans hs
  have hdead := mt (hkilled.alive_iff hp).mp (fun h => h.1 rfl)
  rw [hwait] at hdead
  exact hdead (by simp)

/-- From a consistent table, every sequence of operations goes through and keeps the tree and the
wait entries in order exactly when it kills no process that waits. -/
theorem stays_sound_iff (ht : Consistent t) (ops : List TreeOp) :
    StaysSound t ops ↔ SparesWaiting t ops := by
  induction ops generalizing t with
  | nil => simp [StaysSound, SparesWaiting]
  | cons op ops ih =>
    refine forall_congr' fun hallowed => ?_
    constructor
    · rintro ⟨t', hrun, hsound, hrest⟩
      have hspares : Spares t op := by
        cases op with
        | kill pid errCode =>
          exact fun c hc => not_sound_of_killed ht hallowed.1 hallowed.2 hrun hc hsound
        | _ => trivial
      obtain ⟨t₁, hrun₁, ht₁⟩ := perform_ok ht hallowed hspares
      cases hrun₁.symm.trans hrun
      exact ⟨hspares, by rw [endState_of_ok hrun]; exact (ih ht₁).mp hrest⟩
    · rintro ⟨hspares, hrest⟩
      obtain ⟨t', hrun, ht'⟩ := perform_ok ht hallowed hspares
      rw [endState_of_ok hrun] at hrest
      exact ⟨t', hrun, ht'.toSound, (ih ht').mpr hrest⟩

end

/-- The table when the init process is the only one. -/
def bootTable : Table := { processes := [some {}] }

theorem byPid_bootTable {q : Nat} {r : Process} : bootTable.byPid q = some r ↔ q = 0 ∧ r = {} := by
  cases q with
  | zero => simp [bootTable, Table.byPid, slot, eq_comm]
  | succ q => simp [bootTable, Table.byPid, slot]

theorem consistent_bootTable : Consistent bootTable := by
  have hnone : ∀ c w, ¬ Awaits bootTable c w := by
    rintro c w ⟨p, hp, _, e, he, _⟩
    rw [(byPid_bootTable.mp hp).2] at he
    cases he
  have hinit : bootTable.byPid 0 = some {} := rfl
  refine ⟨⟨⟨⟨_, hinit, by simp, rfl⟩, fun c p hp => ?_, fun p q hq _ c => ?_, fun p q hq _ => ?_⟩,
    fun c w hw => absurd hw (hnone c w)⟩, fun c _ w hw => absurd hw (hnone c w),
    fun c w hw => absurd hw (hnone c w), fun c p hp _ => ?_⟩
  · obtain ⟨rfl, rfl⟩ := byPid_bootTable.mp hp
    exact ⟨⟨_, hinit, by simp⟩, fun h => absurd rfl h⟩
  · obtain ⟨rfl, rfl⟩ := byPid_bootTable.mp hq
    simp only [byPid_bootTable, List.not_mem_nil, false_iff]
    exact fun ⟨hc, _, ⟨hc', _⟩, _⟩ => hc hc'
  · obtain ⟨rfl, rfl⟩ := byPid_bootTable.mp hq
    exact List.nodup_nil
  · obtain ⟨rfl, rfl⟩ := byPid_bootTable.mp hp
    exact List.nodup_nil

/-- A process is created, killed and released. -/
theorem stays_sound_child : StaysSound bootTable [.clone 0 0, .kill 1 7, .releaseZombie 0 1] := by
  refine (stays_sound_iff consistent_bootTable _).mpr fun _ => ⟨trivial, fun _ => ⟨?_, ?_⟩⟩
  · rintro c ⟨p, hp, _, e, he, _⟩
    rcases c with _ | _ | c
    · cases hp
      cases he
    · cases hp
      cases he
    · cases hp
  · exact fun _ => ⟨trivial, trivial⟩

/-- The process 1 waits for its child 2 and is killed. The entry of 2 names it still, and the kill
of 2 fails the assertion that it waits. -/
theorem killed_waiter_fails : Consistent bootTable ∧
      ¬ StaysSound bootTable [.clone 0 0, .clone 1 0, .waitFor 1 2 0, .kill 1 9, .kill 2 9] := by
  refine ⟨consistent_bootTable, fun h => ?_⟩
  obtain ⟨t₁, h₁, _, h⟩ := h ⟨_, rfl, by decide⟩
  cases h₁
  obtain ⟨t₂, h₂, _, h⟩ := h ⟨_, rfl, by decide⟩
  cases h₂
  obtain ⟨t₃, h₃, _, h⟩ := h ⟨_, rfl, rfl, by decide⟩
  cases h₃
  obtain ⟨t₄, h₄, _, h⟩ := h ⟨by decide, _, rfl, by decide⟩
  cases h₄
  obtain ⟨t₅, h₅, _⟩ := h ⟨by decide, _, rfl, by decide⟩
  cases h₅

end LudOS.Tasking.ProcessTable
