import Mathlib.Algebra.Order.Group.Multiset
import LudOS.Utils.DeltaQueue

/-!
# A delta queue is a multiset of timers

Time is what the calls of `decrease` add up to, and a timer is an element with its absolute
deadline. The queue stores differences only. `absolute` adds them up, which yields the timers that
are queued, by deadline and then by insertion. The source adds nothing up, so nothing overflows.
-/

namespace LudOS.DeltaQueue

open Lib

variable {T : Type} {q q' : DeltaQueue T} {base : Nat}

/-- The operands of the unsigned subtractions of `insert`. -/
def insertSubs : Nat → DeltaQueue T → List (Nat × Nat)
  | _, [] => []
  | d, (_, delta) :: rest =>
    if d < delta then [(delta, d)] else (d, delta) :: insertSubs (d - delta) rest

/-- The operands of the unsigned subtractions of `decrease`. -/
def decreaseSubs : DeltaQueue T → Nat → List (Nat × Nat)
  | [], _ => []
  | (_, delta) :: rest, d =>
    if delta ≤ d then (d, delta) :: decreaseSubs rest (d - delta) else [(delta, d)]

theorem insertSubs_exact (d : Nat) (q : DeltaQueue T) : ∀ p ∈ insertSubs d q, p.2 ≤ p.1 := by
  fun_induction insertSubs d q with
  | case1 => simp
  | case2 d _ delta rest h => simpa using h.le
  | case3 d _ delta rest h ih => simpa using ⟨Nat.le_of_not_lt h, by simpa using ih⟩

theorem decreaseSubs_exact (q : DeltaQueue T) (d : Nat) : ∀ p ∈ decreaseSubs q d, p.2 ≤ p.1 := by
  fun_induction decreaseSubs q d with
  | case1 => simp
  | case2 _ delta rest d h ih => simpa using ⟨h, by simpa using ih⟩
  | case3 _ delta rest d h => simpa using Nat.le_of_not_le h

/-! ## Timers -/

/-- An element with its absolute deadline and the number of its insertion. -/
structure Timer (T : Type) where
  el : T
  deadline : Nat
  number : Nat

/-- The earlier deadline comes first, and of equal ones the earlier insertion. -/
def Timer.Before (a b : Timer T) : Prop :=
  a.deadline < b.deadline ∨ a.deadline = b.deadline ∧ a.number < b.number

/-- The time that has passed, the number of the next insertion, and the timers that are queued. -/
structure Timers (T : Type) where
  elapsed : Nat := 0
  next : Nat := 0
  queued : Multiset (Timer T) := 0

/-- A timer is started. -/
def Timers.insert (s : Timers T) (el : T) (d : Nat) : Timers T :=
  { s with next := s.next + 1, queued := ⟨el, s.elapsed + d, s.next⟩ ::ₘ s.queued }

/-- Time passes, and the timers that are due are gone. -/
def Timers.decrease (s : Timers T) (d : Nat) : Timers T :=
  { s with elapsed := s.elapsed + d, queued := s.queued.filter (s.elapsed + d < ·.deadline) }

/-- The elements with the sums of the deltas up to and including each of them, from `base` on. -/
def absolute : Nat → DeltaQueue T → List (T × Nat)
  | _, [] => []
  | base, (x, delta) :: rest => (x, base + delta) :: absolute (base + delta) rest

/-- The queue holds these timers, in their order. -/
structure Holds (base : Nat) (q : DeltaQueue T) (order : List (Timer T)) : Prop where
  sums : absolute base q = order.map fun a => (a.el, a.deadline)
  sorted : order.Pairwise Timer.Before

/-- The queue holds the timers that are queued. -/
def Shows (s : Timers T) (q : DeltaQueue T) : Prop :=
  (∀ a ∈ s.queued, a.number < s.next) ∧
    ∃ order : List (Timer T), (order : Multiset (Timer T)) = s.queued ∧ Holds s.elapsed q order

/-- `decrease` runs the callback on the timers that are due, in order, and leaves `q'`. -/
def Pops (s : Timers T) (q : DeltaQueue T) (d : Nat) (q' : DeltaQueue T) : Prop :=
  ∃ due : List (Timer T),
    (due : Multiset (Timer T)) = s.queued.filter (·.deadline ≤ s.elapsed + d) ∧
    due.Pairwise Timer.Before ∧ ∀ (ε σ : Type) (popCallback : T → EStateM ε σ Unit),
      decrease popCallback q d = each popCallback (due.map Timer.el) >>= fun _ => pure q'

section

variable {order : List (Timer T)} {a : Timer T} {as : List (Timer T)} {delta d : Nat} {x : T}

/-- The first timer, and the others counted from its deadline. -/
theorem holds_cons : Holds base ((x, delta) :: q) order ↔ ∃ a as, order = a :: as ∧ a.el = x ∧
    a.deadline = base + delta ∧ (∀ b ∈ as, a.Before b) ∧ Holds (base + delta) q as := by
  constructor
  · rintro ⟨hsums, hsorted⟩
    cases order with
    | nil => cases hsums
    | cons a as =>
      obtain ⟨hfirst, hrest⟩ := List.cons.inj hsums
      obtain ⟨hel, hdeadline⟩ := Prod.mk.inj hfirst
      obtain ⟨hbefore, hsorted⟩ := List.pairwise_cons.mp hsorted
      exact ⟨a, as, rfl, hel.symm, hdeadline.symm, hbefore, hrest, hsorted⟩
  · rintro ⟨a, as, rfl, rfl, hdeadline, hbefore, h⟩
    exact ⟨by simp [absolute, h.sums, hdeadline], List.pairwise_cons.mpr ⟨hbefore, h.sorted⟩⟩

theorem le_of_before (hbefore : ∀ b ∈ as, a.Before b) : ∀ b ∈ a :: as, a.deadline ≤ b.deadline :=
  List.forall_mem_cons.mpr ⟨le_rfl, fun b hb => (hbefore b hb).elim Nat.le_of_lt fun h => h.1.le⟩

/-- An insertion puts its timer behind those with the same deadline. -/
theorem Holds.insert (h : Holds base q order) (d : Nat) {n : Nat} (hn : ∀ a ∈ order, a.number < n) :
    ∃ order', order'.Perm (⟨x, base + d, n⟩ :: order) ∧ Holds base (insert x d q) order' := by
  induction q generalizing base d order with
  | nil =>
    obtain rfl : order = [] := List.map_eq_nil_iff.mp h.sums.symm
    exact ⟨_, .refl _, rfl, List.pairwise_singleton _ _⟩
  | cons entry rest ih =>
    obtain ⟨y, delta⟩ := entry
    obtain ⟨a, as, rfl, rfl, hdeadline, hbefore, hrest⟩ := holds_cons.mp h
    rw [DeltaQueue.insert]
    split
    case isTrue hlt =>
      have hsum : base + d + (delta - d) = base + delta := by omega
      refine ⟨_, .refl _, holds_cons.mpr ⟨_, _, rfl, rfl, rfl, fun b hb => .inl ?_,
        holds_cons.mpr ⟨a, as, rfl, rfl, by omega, hbefore, hsum ▸ hrest⟩⟩⟩
      have hle := le_of_before hbefore b hb
      show base + d < b.deadline
      omega
    case isFalse hge =>
      obtain ⟨as', hperm, hholds⟩ := ih hrest (d - delta) fun b hb => hn b (.tail a hb)
      rw [show base + delta + (d - delta) = base + d by omega] at hperm
      refine ⟨a :: as', (hperm.cons a).trans (.swap _ _ _),
        holds_cons.mpr ⟨a, as', rfl, rfl, hdeadline, fun b hb => ?_, hholds⟩⟩
      rcases List.mem_cons.mp (hperm.mem_iff.mp hb) with rfl | hb
      · have hfirst := hn a List.mem_cons_self
        show a.deadline < base + d ∨ a.deadline = base + d ∧ a.number < n
        omega
      · exact hbefore b hb

/-- What is due is popped, in order. -/
theorem Holds.decrease (h : Holds base q order) (d : Nat) : ∃ due rest q', order = due ++ rest ∧
    (∀ a ∈ due, a.deadline ≤ base + d) ∧ (∀ a ∈ rest, base + d < a.deadline) ∧
    Holds (base + d) q' rest ∧ ∀ (ε σ : Type) (popCallback : T → EStateM ε σ Unit),
      decrease popCallback q d = each popCallback (due.map Timer.el) >>= fun _ => pure q' := by
  induction q generalizing base d order with
  | nil =>
    obtain rfl : order = [] := List.map_eq_nil_iff.mp h.sums.symm
    exact ⟨[], [], [], rfl, nofun, nofun, ⟨rfl, .nil⟩, fun _ _ _ => rfl⟩
  | cons entry rest ih =>
    obtain ⟨y, delta⟩ := entry
    obtain ⟨a, as, rfl, rfl, hdeadline, hbefore, hrest⟩ := holds_cons.mp h
    by_cases hle : delta ≤ d
    · obtain ⟨due, left, q', rfl, hdue, hleft, hholds, hrun⟩ := ih hrest (d - delta)
      rw [show base + delta + (d - delta) = base + d by omega] at hdue hleft hholds
      refine ⟨a :: due, left, q', rfl, List.forall_mem_cons.mpr ⟨by omega, hdue⟩, hleft, hholds,
        fun ε σ popCallback => ?_⟩
      rw [DeltaQueue.decrease, if_pos hle, List.map_cons, each, bind_assoc, hrun]
    · have hsum : base + d + (delta - d) = base + delta := by omega
      refine ⟨[], a :: as, (a.el, delta - d) :: rest, rfl, nofun, fun b hb => ?_,
        holds_cons.mpr ⟨a, as, rfl, rfl, by omega, hbefore, hsum ▸ hrest⟩, fun _ _ _ => ?_⟩
      · have hge := le_of_before hbefore b hb
        omega
      · rw [DeltaQueue.decrease, if_neg hle]
        rfl

theorem Shows.insert {s : Timers T} (h : Shows s q) (el : T) (d : Nat) :
    Shows (s.insert el d) (insert el d q) := by
  obtain ⟨hn, order, horder, hholds⟩ := h
  rw [← horder] at hn
  obtain ⟨order', hperm, hholds'⟩ := @Holds.insert _ _ _ _ el hholds d s.next hn
  refine ⟨fun a ha => ?_, order', ?_, hholds'⟩
  · rcases Multiset.mem_cons.mp ha with rfl | ha
    · exact Nat.lt_succ_self _
    · exact Nat.lt_succ_of_lt (hn a (horder ▸ ha))
  · show _ = _ ::ₘ s.queued
    rw [← horder]
    exact Multiset.coe_eq_coe.mpr hperm

theorem Shows.decrease {s : Timers T} (h : Shows s q) (d : Nat) :
    ∃ q', Pops s q d q' ∧ Shows (s.decrease d) q' := by
  obtain ⟨hn, order, horder, hholds⟩ := h
  obtain ⟨due, rest, q', rfl, hdue, hrest, hholds', hrun⟩ := hholds.decrease d
  have hsplit : s.queued = (due : Multiset (Timer T)) + rest := by rw [← horder, Multiset.coe_add]
  refine ⟨q', ⟨due, ?_, (List.pairwise_append.mp hholds.sorted).1, hrun⟩,
    fun a ha => hn a (Multiset.mem_of_mem_filter ha), rest, ?_, hholds'⟩
  · rw [hsplit, Multiset.filter_add, Multiset.filter_eq_self.mpr hdue,
      Multiset.filter_eq_nil.mpr fun a ha => (hrest a ha).not_ge, add_zero]
  · show _ = s.queued.filter _
    rw [hsplit, Multiset.filter_add, Multiset.filter_eq_nil.mpr fun a ha => (hdue a ha).not_gt,
      zero_add]
    exact (Multiset.filter_eq_self.mpr hrest).symm

end

/-- What a sequence of calls from the empty queue on leads to. -/
inductive Reached : Timers T → DeltaQueue T → Prop where
  | empty : Reached {} []
  | insert {s : Timers T} {q : DeltaQueue T} (el : T) (d : Nat) :
      Reached s q → Reached (s.insert el d) (insert el d q)
  | decrease {s : Timers T} {q q' : DeltaQueue T} {d : Nat} {ε σ : Type}
      (popCallback : T → EStateM ε σ Unit) {w w' : σ} : Reached s q →
      (decrease popCallback q d).run w = .ok q' w' → Reached (s.decrease d) q'

/-- Whatever has been called, the queue holds the timers that are queued, the next `decrease` runs
its callback on those that are due and keeps the others, and no subtraction underflows. -/
theorem delta_queue_refines_timers {s : Timers T} (h : Reached s q) : Shows s q ∧ ∀ d,
    (∃ q', Pops s q d q' ∧ Shows (s.decrease d) q') ∧ (∀ p ∈ insertSubs d q, p.2 ≤ p.1) ∧
      ∀ p ∈ decreaseSubs q d, p.2 ≤ p.1 := by
  have hshows : Shows s q := by
    induction h with
    | empty => exact ⟨nofun, [], rfl, rfl, .nil⟩
    | insert el d _ ih => exact ih.insert el d
    | decrease popCallback _ hrun ih =>
      obtain ⟨q'', ⟨due, -, -, hpop⟩, hshows⟩ := ih.decrease _
      rw [hpop] at hrun
      obtain ⟨_, _, _, hend⟩ := run_bind_eq_ok.mp hrun
      cases hend
      exact hshows
  exact ⟨hshows, fun d => ⟨hshows.decrease d, insertSubs_exact d q, decreaseSubs_exact q d⟩⟩

/-- Two timers, of which one is due after 3 ticks. -/
theorem delta_queue_pops_first : ∃ q' : DeltaQueue Char,
    Pops (({} : Timers Char).insert 'b' 5 |>.insert 'a' 2) [('a', 2), ('b', 3)] 3 q' ∧
      Shows ((({} : Timers Char).insert 'b' 5 |>.insert 'a' 2).decrease 3) q' :=
  ((delta_queue_refines_timers (.insert 'a' 2 (.insert 'b' 5 .empty))).2 3).1

end LudOS.DeltaQueue
