import Mathlib.Tactic.Common

/-!
# State-and-fault programs

`EStateM ε σ` is the monad of programs that transform a state and may stop with a fault, keeping
the state reached so far. The rules below evaluate a sequence one operation at a time and take a
successful sequence apart again. `check` is an assertion and `loop` a counting loop with its
invariant rule. `Keeps` is for invariants that have to survive a fault as well, and `Follows` for
two programs that do the same as long as an invariant holds.
-/

namespace LudOS.Lib

variable {ε σ α β : Type} {x y : EStateM ε σ α} {f g : α → EStateM ε σ β} {s s' t : σ} {a : α}
  {b : β} {e : ε} {c : Prop} {start count : Nat} {body : Nat → EStateM ε σ Unit}

/-- The value of a run, if the run ends without a fault. -/
def valueOf (x : EStateM ε σ α) (s : σ) : Option α :=
  match x.run s with
  | .ok a _ => some a
  | .error _ _ => none

theorem valueOf_of_run (h : x.run s = .ok a s') : valueOf x s = some a := by
  simp [valueOf, h]

theorem valueOf_of_error (h : x.run s = .error e s') : valueOf x s = none := by
  simp [valueOf, h]

theorem valueOf_congr (h : x.run s = y.run t) : valueOf x s = valueOf y t := by
  unfold valueOf
  rw [h]

/-- A successful first operation passes its value and state on. -/
theorem run_bind_ok (h : x.run s = .ok a s') : (x >>= f).run s = (f a).run s' := by
  rw [EStateM.run_bind, h]

/-- A faulting first operation ends the sequence. -/
theorem run_bind_error (h : x.run s = .error e s') : (x >>= f).run s = .error e s' := by
  rw [EStateM.run_bind, h]

/-- A sequence goes on from wherever its first part has led. -/
theorem run_bind_congr (h : x.run s = y.run t)
    (f : α → EStateM ε σ β) : (x >>= f).run s = (y >>= f).run t := by
  rw [EStateM.run_bind, EStateM.run_bind, h]

/-- A sequence succeeds exactly when both parts do. -/
theorem run_bind_eq_ok :
    (x >>= f).run s = .ok b t ↔ ∃ a s', x.run s = .ok a s' ∧ (f a).run s' = .ok b t := by
  rw [EStateM.run_bind]
  cases h : x.run s with
  | ok a s' => simp
  | error e s' => simp

/-- A sequence stops with a fault of its first part or of its second. -/
theorem run_bind_eq_error : (x >>= f).run s = .error e t ↔
      x.run s = .error e t ∨ ∃ a s', x.run s = .ok a s' ∧ (f a).run s' = .error e t := by
  rw [EStateM.run_bind]
  cases h : x.run s with
  | ok a s' => simp
  | error e s' => simp

/-- A successful sequence without a state. -/
theorem except_bind_eq_ok {x : Except ε α} {f : α → Except ε β} :
    x >>= f = .ok b ↔ ∃ a, x = .ok a ∧ f a = .ok b := by
  cases x with
  | ok a => simp [bind, Except.bind]
  | error e => simp [bind, Except.bind]

theorem run_get_bind (f : σ → EStateM ε σ β) (s : σ) :
    ((get : EStateM ε σ σ) >>= f).run s = (f s).run s := rfl

theorem run_set_bind (t : σ) (f : PUnit → EStateM ε σ β) (s : σ) :
    ((set t : EStateM ε σ PUnit) >>= f).run s = (f ⟨⟩).run t := rfl

theorem run_modify_bind (g : σ → σ) (f : PUnit → EStateM ε σ β) (s : σ) :
    ((modify g : EStateM ε σ PUnit) >>= f).run s = (f ⟨⟩).run (g s) := rfl

/-- Continue only when the condition holds, and stop with the given fault otherwise. -/
def check (e : ε) (c : Prop) [Decidable c] : EStateM ε σ Unit :=
  if c then pure () else throw e

theorem run_check_pos [Decidable c] (h : c) (s : σ) :
    (check e c : EStateM ε σ Unit).run s = .ok () s := by
  simp [check, h]

theorem run_check_neg [Decidable c] (h : ¬ c) (s : σ) :
    (check e c : EStateM ε σ Unit).run s = .error e s := by
  simp only [check, h, if_false]
  rfl

theorem run_check_eq_ok [Decidable c] {u : Unit} :
    (check e c : EStateM ε σ Unit).run s = .ok u t ↔ c ∧ s = t := by
  by_cases h : c
  · simp [run_check_pos h, h]
  · simp [run_check_neg h, h]

theorem run_check_bind [Decidable c] {f : Unit → EStateM ε σ β} (h : c) :
    (check e c >>= f).run s = (f ()).run s := run_bind_ok (run_check_pos h s)

theorem run_check_bind_eq_ok [Decidable c] {f : Unit → EStateM ε σ β} :
    (check e c >>= f).run s = .ok b t ↔ c ∧ (f ()).run s = .ok b t := by
  rw [run_bind_eq_ok]
  constructor
  · rintro ⟨⟨⟩, r, hcheck, hrun⟩
    obtain ⟨hc, rfl⟩ := run_check_eq_ok.mp hcheck
    exact ⟨hc, hrun⟩
  · rintro ⟨hc, hrun⟩
    exact ⟨(), s, run_check_pos hc s, hrun⟩

theorem run_set_eq_ok {u : PUnit} :
    (set t : EStateM ε σ PUnit).run s = .ok u s' ↔ s' = t := by
  constructor
  · rintro ⟨⟩
    rfl
  · rintro rfl
    rfl

/-- A program on a part of the state. -/
def zoom {τ : Type} (view : σ → τ) (put : τ → σ → σ) (x : EStateM ε τ α) : EStateM ε σ α := fun s =>
  match x.run (view s) with
  | .ok a t => .ok a (put t s)
  | .error e t => .error e (put t s)

theorem run_zoom_eq_ok {τ : Type} {view : σ → τ} {put : τ → σ → σ} {x : EStateM ε τ α} :
    (zoom view put x).run s = .ok a s' ↔ ∃ t, x.run (view s) = .ok a t ∧ s' = put t s := by
  show zoom view put x s = .ok a s' ↔ _
  unfold zoom
  cases x.run (view s) with
  | ok b t => simp [eq_comm]
  | error e t => simp

/-- Run `body start`, `body (start + 1)`, ..., `count` times in all. -/
def loop (body : Nat → EStateM ε σ Unit) : (start count : Nat) → EStateM ε σ Unit
  | _, 0 => pure ()
  | start, count + 1 => do
    body start
    loop body (start + 1) count

/-- A loop of tests, which only look at the state, returns when all of them succeed. -/
theorem run_loop_test {test : Nat → Prop}
    (hbody : ∀ i t, (body i).run s = .ok () t ↔ test i ∧ s = t) :
    (loop body start count).run s = .ok () t ↔
      (∀ i, start ≤ i → i < start + count → test i) ∧ s = t := by
  induction count generalizing start with
  | zero =>
    constructor
    · rintro ⟨⟩
      exact ⟨fun i hge hlt => by omega, rfl⟩
    · rintro ⟨-, rfl⟩
      rfl
  | succ count ih =>
    rw [loop, run_bind_eq_ok]
    constructor
    · rintro ⟨⟨⟩, r, hfirst, hrest⟩
      obtain ⟨htest, rfl⟩ := (hbody start r).mp hfirst
      obtain ⟨hothers, rfl⟩ := ih.mp hrest
      refine ⟨fun i hge hlt => ?_, rfl⟩
      rcases Nat.eq_or_lt_of_le hge with rfl | hgt
      · exact htest
      · exact hothers i hgt (by omega)
    · rintro ⟨htests, rfl⟩
      exact ⟨(), s, (hbody start s).mpr ⟨htests start (Nat.le_refl _) (by omega), rfl⟩,
        ih.mpr ⟨fun i hge hlt => htests i (by omega) (by omega), rfl⟩⟩

/-- A loop of one iteration is its body. -/
theorem run_loop_one
    (h : (body start).run s = .ok () t) : (loop body start 1).run s = .ok () t := by
  rw [loop, run_bind_ok h]
  rfl

/-- A loop whose body always succeeds and carries the invariant from one index to the next
succeeds and ends in a state that satisfies it at the last index. -/
theorem loop_invariant (inv : Nat → σ → Prop)
    (hbody : ∀ i s, start ≤ i → i < start + count → inv i s →
      ∃ s', (body i).run s = .ok () s' ∧ inv (i + 1) s') (h : inv start s) :
    ∃ s', (loop body start count).run s = .ok () s' ∧ inv (start + count) s' := by
  induction count generalizing start s with
  | zero => exact ⟨s, rfl, h⟩
  | succ count ih =>
    obtain ⟨s', hrun, hs'⟩ := hbody start s (Nat.le_refl _) (by omega) h
    obtain ⟨t, ht, hinv⟩ := ih (fun i s hi hlt => hbody i s (by omega) (by omega)) hs'
    refine ⟨t, ?_, ?_⟩
    · rw [loop, run_bind_ok hrun, ht]
    · rwa [show start + (count + 1) = start + 1 + count by omega]

/-- What every iteration of a successful loop carries from one index to the next holds at the last
index. -/
theorem loop_carries (inv : Nat → σ → Prop)
    (hbody : ∀ i s s', start ≤ i → i < start + count → inv i s → (body i).run s = .ok () s' →
      inv (i + 1) s') (h : inv start s) (hrun : (loop body start count).run s = .ok () t) :
    inv (start + count) t := by
  induction count generalizing start s with
  | zero =>
    cases hrun
    exact h
  | succ count ih =>
    rw [loop, run_bind_eq_ok] at hrun
    obtain ⟨_, s', hfirst, hrest⟩ := hrun
    rw [show start + (count + 1) = start + 1 + count by omega]
    refine ih (fun i s s' hi hlt => hbody i s s' (by omega) (by omega)) ?_ hrest
    exact hbody start s s' (Nat.le_refl _) (by omega) h hfirst

/-- What every iteration of a successful loop preserves holds at its end. -/
theorem loop_preserves {body : Nat → EStateM ε σ Unit} {start count : Nat} {inv : σ → Prop}
    (hbody : ∀ i s s', start ≤ i → i < start + count → inv s → (body i).run s = .ok () s' → inv s')
    {s t : σ} (h : inv s) (hrun : (loop body start count).run s = .ok () t) : inv t :=
  loop_carries (fun _ => inv) hbody h hrun

/-- Run the body on every element of a list, in order. -/
def each {α : Type} (body : α → EStateM ε σ Unit) : List α → EStateM ε σ Unit
  | [] => pure ()
  | a :: as => do
    body a
    each body as

/-- A list in two parts is gone through part by part. -/
theorem run_each_append {α : Type} (body : α → EStateM ε σ Unit) (as bs : List α) (s : σ) :
    (each body (as ++ bs)).run s = (each body as >>= fun _ => each body bs).run s := by
  induction as generalizing s with
  | nil => rfl
  | cons a as ih =>
    rw [List.cons_append, each, each, bind_assoc, EStateM.run_bind, EStateM.run_bind]
    cases (body a).run s with
    | ok u t => exact ih t
    | error e t => rfl

/-- An iteration whose body always succeeds and keeps the invariant succeeds and keeps it. -/
theorem each_invariant {α : Type} {body : α → EStateM ε σ Unit} {as : List α} (inv : σ → Prop)
    (hbody : ∀ a ∈ as, ∀ s, inv s → ∃ s', (body a).run s = .ok () s' ∧ inv s')
    (h : inv s) : ∃ s', (each body as).run s = .ok () s' ∧ inv s' := by
  induction as generalizing s with
  | nil => exact ⟨s, rfl, h⟩
  | cons a as ih =>
    obtain ⟨s', hrun, hs'⟩ := hbody a List.mem_cons_self s h
    obtain ⟨t, ht, hinv⟩ := ih (fun b hb => hbody b (List.mem_cons_of_mem a hb)) hs'
    exact ⟨t, by rw [each, run_bind_ok hrun, ht], hinv⟩

/-- What every iteration over the list preserves holds at its end. -/
theorem each_preserves {α : Type} {body : α → EStateM ε σ Unit} {as : List α} {inv : σ → Prop}
    (hbody : ∀ a s s', inv s → (body a).run s = .ok () s' → inv s') {s t : σ} {u : Unit}
    (h : inv s) (hrun : (each body as).run s = .ok u t) : inv t := by
  induction as generalizing s with
  | nil =>
    cases hrun
    exact h
  | cons a as ih =>
    rw [each, run_bind_eq_ok] at hrun
    obtain ⟨_, s', hfirst, hrest⟩ := hrun
    exact ih (hbody a s s' h hfirst) hrest

/-! ## Invariants of runs that may stop -/

/-- The state in which a run ends, completed or stopped by a fault. -/
def endState (x : EStateM ε σ α) (s : σ) : σ :=
  match x.run s with
  | .ok _ t => t
  | .error _ t => t

/-- Whether the program completes or not, it ends in a state with the invariant. -/
def Keeps (inv : σ → Prop) (x : EStateM ε σ α) : Prop := ∀ s, inv s → inv (endState x s)

section

variable {inv : σ → Prop}

theorem endState_of_ok (h : x.run s = .ok a t) : endState x s = t := by
  simp [endState, h]

theorem endState_of_error (h : x.run s = .error e t) : endState x s = t := by
  simp [endState, h]

theorem endState_congr {y : EStateM ε σ α} (h : x.run s = y.run t) :
    endState x s = endState y t := by
  unfold endState
  rw [h]

theorem Keeps.of_ok (h : Keeps inv x) (hrun : x.run s = .ok a t) (hs : inv s) : inv t :=
  endState_of_ok hrun ▸ h s hs

/-- What the program returns or stops with. -/
def outcome (x : EStateM ε σ α) (s : σ) : Except ε α :=
  match x.run s with
  | .ok a _ => .ok a
  | .error e _ => .error e

theorem outcome_of_ok (h : x.run s = .ok a t) : outcome x s = .ok a := by
  simp [outcome, h]

theorem run_of_outcome_ok (h : outcome x s = .ok a) : x.run s = .ok a (endState x s) := by
  unfold outcome at h
  unfold endState
  cases hrun : x.run s with
  | ok b t =>
    rw [hrun] at h
    cases h
    rfl
  | error e t =>
    rw [hrun] at h
    cases h

theorem run_of_outcome_error (h : outcome x s = .error e) : x.run s = .error e (endState x s) := by
  unfold outcome at h
  unfold endState
  cases hrun : x.run s with
  | ok b t =>
    rw [hrun] at h
    cases h
  | error e' t =>
    rw [hrun] at h
    cases h
    rfl

theorem exists_run_of_outcome (h : (outcome x s).toBool = true) : ∃ a t, x.run s = .ok a t := by
  cases hx : outcome x s with
  | ok a => exact ⟨a, _, run_of_outcome_ok hx⟩
  | error e =>
    rw [hx] at h
    cases h

@[grind ←] theorem keeps_pure (a : α) : Keeps inv (pure a : EStateM ε σ α) := fun _ hs => hs

@[grind ←] theorem keeps_throw (e : ε) : Keeps inv (throw e : EStateM ε σ α) := fun _ hs => hs

@[grind ←] theorem keeps_check (e : ε) (c : Prop) [Decidable c] :
    Keeps inv (check e c : EStateM ε σ Unit) := by
  unfold check
  split
  · exact keeps_pure ()
  · exact keeps_throw e

/-- Both parts of a sequence keep the invariant, the second one for the values that the first one
can return. -/
theorem keeps_bind (hx : Keeps inv x)
    (hf : ∀ a s s', x.run s = .ok a s' → Keeps inv (f a)) : Keeps inv (x >>= f) := by
  intro s hs
  have hend := hx s hs
  cases h : x.run s with
  | ok a s' =>
    rw [endState_of_ok h] at hend
    have hrest := hf a s s' h s' hend
    unfold endState at hrest ⊢
    rwa [run_bind_ok h]
  | error e s' =>
    rw [endState_of_error h] at hend
    rwa [endState_of_error (run_bind_error h)]

/-- The same when the second part keeps it whatever the first one returns. -/
@[grind ←] theorem keeps_seq (hx : Keeps inv x) (hf : ∀ a, Keeps inv (f a)) : Keeps inv (x >>= f) :=
  keeps_bind hx fun a _ _ _ => hf a

/-- The state that is read has the invariant. -/
@[grind ←] theorem keeps_get_bind {f : σ → EStateM ε σ β} (hf : ∀ s, inv s → Keeps inv (f s)) :
    Keeps inv ((get : EStateM ε σ σ) >>= f) := by
  intro s hs
  exact hf s hs s hs

@[grind ←] theorem keeps_set (h : inv t) : Keeps inv (set t : EStateM ε σ PUnit) := fun _ _ => h

@[grind ←] theorem keeps_modify {g : σ → σ} (h : ∀ s, inv s → inv (g s)) :
    Keeps inv (modify g : EStateM ε σ PUnit) := h

theorem keeps_ite [Decidable c] (hx : Keeps inv x)
    (hy : Keeps inv y) : Keeps inv (if c then x else y) := by
  split
  · exact hx
  · exact hy

@[grind ←] theorem keeps_each {body : α → EStateM ε σ Unit} {as : List α}
    (hbody : ∀ a ∈ as, Keeps inv (body a)) : Keeps inv (each body as) := by
  induction as with
  | nil => exact keeps_pure ()
  | cons a as ih =>
    exact keeps_bind (hbody a List.mem_cons_self)
      fun _ _ _ _ => ih fun b hb => hbody b (List.mem_cons_of_mem a hb)

theorem keeps_loop {body : Nat → EStateM ε σ Unit} (hbody : ∀ i, Keeps inv (body i))
    (start count : Nat) : Keeps inv (loop body start count) := by
  induction count generalizing start with
  | zero => exact keeps_pure ()
  | succ count ih => exact keeps_seq (hbody start) fun _ => ih (start + 1)

end

end LudOS.Lib
