import Mathlib.Data.List.Perm.Basic
import LudOS.Lib.Program

/-!
# Delta queues

The model of `utils/deltaqueue.hpp`. A queue lists its elements by expiry, each with the time left
after the one before it. `decrease` runs the pop callback on every element that expires, the
element being still in the list while it runs. The comparisons before each subtraction keep it in
range, so the unsigned arithmetic of the source is exact.
-/

namespace LudOS

open Lib

/-- `DeltaQueue<T, S>::m_list`. -/
abbrev DeltaQueue (T : Type) := List (T × Nat)

namespace DeltaQueue

variable {T ε σ : Type}

/-- `DeltaQueue::elements`. -/
def elements (q : DeltaQueue T) : List T := q.map Prod.fst

/-- `DeltaQueue::insert`. -/
def insert (el : T) : Nat → DeltaQueue T → DeltaQueue T
  | sleepDuration, [] => [(el, sleepDuration)]
  | sleepDuration, (x, delta) :: rest =>
    if sleepDuration < delta then (el, sleepDuration) :: (x, delta - sleepDuration) :: rest
    else (x, delta) :: insert el (sleepDuration - delta) rest

/-- `DeltaQueue::decrease`, with the effect of the pop callback on the state around the queue. It
returns the new list. -/
def decrease (popCallback : T → EStateM ε σ Unit) :
    DeltaQueue T → Nat → EStateM ε σ (DeltaQueue T)
  | [], _ => pure []
  | (x, delta) :: rest, duration =>
    if delta ≤ duration then do
      popCallback x
      decrease popCallback rest (duration - delta)
    else pure ((x, delta - duration) :: rest)

@[simp] theorem elements_nil : elements ([] : DeltaQueue T) = [] := rfl

@[simp] theorem elements_cons (x : T) (delta : Nat) (q : DeltaQueue T) :
    elements ((x, delta) :: q) = x :: elements q := rfl

/-- An insertion adds its element and keeps the others. -/
theorem elements_insert_perm (el : T) (sleepDuration : Nat) (q : DeltaQueue T) :
    (elements (insert el sleepDuration q)).Perm (el :: elements q) := by
  induction q generalizing sleepDuration with
  | nil => rfl
  | cons entry rest ih =>
    obtain ⟨x, delta⟩ := entry
    rw [insert]
    split
    case isTrue => rfl
    case isFalse =>
      rw [elements_cons, elements_cons]
      exact ((ih _).cons x).trans (List.Perm.swap el x _)

/-- An invariant of the elements still queued and the state that every callback restores holds
after `decrease`, which then succeeds. -/
theorem decrease_invariant {popCallback : T → EStateM ε σ Unit} (inv : List T → σ → Prop)
    (hpop : ∀ x rest s, inv (x :: rest) s → ∃ s', (popCallback x).run s = .ok () s' ∧ inv rest s')
    {q : DeltaQueue T} (duration : Nat) {s : σ} (h : inv q.elements s) :
    ∃ q' s', (decrease popCallback q duration).run s = .ok q' s' ∧ inv q'.elements s' := by
  induction q generalizing duration s with
  | nil => exact ⟨[], s, rfl, h⟩
  | cons entry rest ih =>
    obtain ⟨x, delta⟩ := entry
    rw [decrease]
    split
    case isTrue =>
      obtain ⟨s1, hrun, hs1⟩ := hpop x (elements rest) s h
      rw [run_bind_ok hrun]
      exact ih _ hs1
    case isFalse => exact ⟨(x, delta - duration) :: rest, s, rfl, h⟩

/-- When the whole time of an inserted element passes, the element is popped. -/
theorem decrease_insert_pops {popCallback : T → EStateM ε σ Unit} {el : T} {sleepDuration : Nat}
    {q q' : DeltaQueue T} {s s' : σ}
    (h : (decrease popCallback (insert el sleepDuration q) sleepDuration).run s = .ok q' s') :
    ∃ popped, elements (insert el sleepDuration q) = popped ++ elements q' ∧ el ∈ popped := by
  induction q generalizing sleepDuration s with
  | nil =>
    rw [insert, decrease, if_pos (Nat.le_refl _)] at h
    obtain ⟨_, _, _, hrest⟩ := run_bind_eq_ok.mp h
    cases hrest
    exact ⟨[el], rfl, List.mem_singleton_self el⟩
  | cons entry rest ih =>
    obtain ⟨x, delta⟩ := entry
    rw [insert] at h ⊢
    split at h
    case isTrue hlt =>
      rw [decrease, if_pos (Nat.le_refl _)] at h
      obtain ⟨_, _, _, hrest⟩ := run_bind_eq_ok.mp h
      rw [decrease, if_neg (by omega)] at hrest
      cases hrest
      exact ⟨[el], by simp [hlt], List.mem_singleton_self el⟩
    case isFalse hge =>
      rw [decrease, if_pos (by omega)] at h
      obtain ⟨_, _, _, hrest⟩ := run_bind_eq_ok.mp h
      obtain ⟨popped, hsplit, hmem⟩ := ih hrest
      exact ⟨x :: popped, by simp [hge, hsplit], List.mem_cons_of_mem x hmem⟩

end DeltaQueue

end LudOS
