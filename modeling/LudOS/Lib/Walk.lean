import Mathlib.Data.List.Basic

/-!
# Walks along pointers

A store of nodes whose entries name other nodes, given by the function `next` from a node and an
index to the node its entry names. `follow` walks along a list of indices, `visited` are the nodes
whose entries it reads. A walk depends on the nodes it visits and on nothing else, which is what
makes it stable under changes elsewhere in the store.

With a null node that ends every walk, `resolve` is the node a path leads to, or null.
-/

namespace LudOS.Lib.Walk

variable {ν ι : Type}

/-- The node that a list of indices leads to. -/
def follow (next : ν → ι → ν) : ν → List ι → ν
  | p, [] => p
  | p, i :: is => follow next (next p i) is

/-- The nodes whose entries are read on the way. -/
def visited (next : ν → ι → ν) : ν → List ι → List ν
  | _, [] => []
  | p, i :: is => p :: visited next (next p i) is

/-- The last node whose entry is read, or the start of an empty walk. -/
def leaf (next : ν → ι → ν) : ν → List ι → ν
  | p, [] | p, [_] => p
  | p, i :: i' :: is => leaf next (next p i) (i' :: is)

variable {next next' : ν → ι → ν} {p : ν} {is : List ι}

theorem follow_append (p : ν) (is js : List ι) :
    follow next p (is ++ js) = follow next (follow next p is) js := by
  induction is generalizing p with
  | nil => rfl
  | cons i is ih => exact ih (next p i)

/-- The visited nodes are those that the shorter walks lead to. -/
theorem mem_visited {n : ν} :
    n ∈ visited next p is ↔ ∃ js i ks, is = js ++ i :: ks ∧ follow next p js = n := by
  induction is generalizing p with
  | nil => simp [visited]
  | cons i is ih =>
    unfold visited
    rw [List.mem_cons, ih]
    constructor
    · rintro (rfl | ⟨js, i', ks, rfl, rfl⟩)
      · exact ⟨[], i, is, rfl, rfl⟩
      · exact ⟨i :: js, i', ks, rfl, rfl⟩
    · rintro ⟨js, i', ks, hsplit, rfl⟩
      cases js with
      | nil => exact .inl rfl
      | cons j js =>
        obtain ⟨rfl, rfl⟩ := List.cons.inj hsplit
        exact .inr ⟨js, i', ks, rfl, rfl⟩

theorem leaf_mem_visited (h : is ≠ []) : leaf next p is ∈ visited next p is := by
  induction is generalizing p with
  | nil => exact absurd rfl h
  | cons i is ih =>
    cases is with
    | nil => exact List.mem_singleton.mpr rfl
    | cons i' is => exact List.mem_cons_of_mem _ (ih (by simp))

section Frame

/-- A walk only depends on the entries it reads. -/
theorem follow_congr_on (h : ∀ js i ks, is = js ++ i :: ks →
    next (follow next p js) i = next' (follow next p js) i) :
    follow next p is = follow next' p is ∧ visited next p is = visited next' p is := by
  induction is generalizing p with
  | nil => exact ⟨rfl, rfl⟩
  | cons i is ih =>
    have hhead : next p i = next' p i := h [] i is rfl
    have hrest := ih fun js j ks hsplit => h (i :: js) j ks (congrArg (i :: ·) hsplit)
    unfold follow visited
    rw [← hhead]
    exact ⟨hrest.1, congrArg (p :: ·) hrest.2⟩

variable (h : ∀ n ∈ visited next p is, next n = next' n)

include h

/-- In particular it only depends on the nodes it visits. -/
theorem follow_congr :
    follow next p is = follow next' p is ∧ visited next p is = visited next' p is := by
  refine follow_congr_on fun js i ks hsplit => ?_
  rw [h _ (mem_visited.mpr ⟨js, i, ks, hsplit, rfl⟩)]

theorem leaf_congr : leaf next p is = leaf next' p is := by
  induction is generalizing p with
  | nil => rfl
  | cons i is ih =>
    have hhead : next p = next' p := h p List.mem_cons_self
    cases is with
    | nil => rfl
    | cons i' is =>
      unfold leaf
      rw [← hhead]
      exact ih fun n hn => h n (List.mem_cons_of_mem _ hn)

end Frame

/-! ## Null -/

section Null

variable [DecidableEq ν] {null n : ν} {i : ι}

/-- The node that a path leads to, or null if it passes through null. -/
def resolve (next : ν → ι → ν) (null p : ν) (is : List ι) : ν :=
  if null ∈ visited next p is then null else follow next p is

theorem resolve_ne_null (h : resolve next null p is ≠ null) :
    null ∉ visited next p is ∧ resolve next null p is = follow next p is := by
  unfold resolve at h ⊢
  split at h
  case isTrue => exact absurd rfl h
  case isFalse hnot => exact ⟨hnot, if_neg hnot⟩

/-- What a path leads to only depends on the nodes it visits. -/
theorem resolve_congr (h : ∀ n ∈ visited next p is, next n = next' n) :
    resolve next null p is = resolve next' null p is := by
  obtain ⟨hfollow, hvisited⟩ := follow_congr h
  unfold resolve
  rw [hfollow, hvisited]

theorem resolve_nil (p : ν) : resolve next null p [] = p := if_neg List.not_mem_nil

theorem resolve_cons (p : ν) (i : ι) (is : List ι) :
    resolve next null p (i :: is) = if p = null then null else resolve next null (next p i) is := by
  unfold resolve
  show (if null ∈ p :: visited next (next p i) is then null else follow next (next p i) is) = _
  by_cases hp : p = null
  · simp [hp]
  · simp [hp, Ne.symm hp]

/-- A path that does not lead to null does not start there. -/
theorem ne_null_of_resolve (h : resolve next null p is ≠ null) : p ≠ null := by
  rintro rfl
  cases is with
  | nil => exact h (resolve_nil _)
  | cons i is => exact h (by rw [resolve_cons, if_pos rfl])

/-- A path that does not lead to null has shorter paths that do not lead to null either. -/
theorem resolve_append_ne_null {js : List ι} (h : resolve next null p (is ++ js) ≠ null) :
    resolve next null p is ≠ null := by
  induction is generalizing p with
  | nil =>
    rw [resolve_nil]
    exact ne_null_of_resolve h
  | cons i is ih =>
    rw [List.cons_append, resolve_cons] at h
    rw [resolve_cons]
    split at h
    case isTrue => exact absurd rfl h
    case isFalse hp =>
      rw [if_neg hp]
      exact ih h

/-- One more index. -/
theorem resolve_concat (h : resolve next null p is ≠ null) :
    resolve next null p (is ++ [i]) = next (resolve next null p is) i := by
  induction is generalizing p with
  | nil =>
    rw [resolve_nil] at h ⊢
    rw [List.nil_append, resolve_cons, if_neg h, resolve_nil]
  | cons j is ih =>
    have hp := ne_null_of_resolve h
    rw [resolve_cons, if_neg hp] at h ⊢
    rw [List.cons_append, resolve_cons, if_neg hp, ih h]

/-- The nodes visited by a walk that does not pass through null are what its shorter paths lead
to. -/
theorem exists_resolve_eq_of_mem_visited (hnull : null ∉ visited next p is)
    (h : n ∈ visited next p is) :
    ∃ js i ks, is = js ++ i :: ks ∧ resolve next null p js = n ∧ n ≠ null := by
  obtain ⟨js, i, ks, rfl, rfl⟩ := mem_visited.mp h
  refine ⟨js, i, ks, rfl, ?_, fun heq => hnull (heq ▸ h)⟩
  refine if_neg fun hmem => hnull ?_
  obtain ⟨ls, i', ms, rfl, heq⟩ := mem_visited.mp hmem
  exact mem_visited.mpr ⟨ls, i', ms ++ i :: ks, by simp, heq⟩

/-! ## Where a path breaks off -/

/-- The nodes on a path before it comes to null. -/
def trail (next : ν → ι → ν) (null : ν) : ν → List ι → List ν
  | _, [] => []
  | p, i :: is => if p = null then [] else p :: trail next null (next p i) is

/-- The first null entry on a path, with the node it belongs to. -/
def gap (next : ν → ι → ν) (null : ν) : ν → List ι → Option (ν × ι)
  | _, [] => none
  | p, i :: is =>
    if p = null then none
    else if next p i = null then some (p, i) else gap next null (next p i) is

theorem resolve_null (is : List ι) : resolve next null null is = null := by
  cases is with
  | nil => exact resolve_nil _
  | cons i is => rw [resolve_cons, if_pos rfl]

theorem trail_null (is : List ι) : trail next null null is = [] := by
  cases is with
  | nil => rfl
  | cons i is => exact if_pos rfl

theorem trail_cons (hp : p ≠ null) :
    trail next null p (i :: is) = p :: trail next null (next p i) is := if_neg hp

theorem gap_cons (hp : p ≠ null) : gap next null p (i :: is) =
    if next p i = null then some (p, i) else gap next null (next p i) is := if_neg hp

theorem mem_trail (h : n ∈ trail next null p is) :
    n ≠ null ∧ ∃ js i ks, is = js ++ i :: ks ∧ resolve next null p js = n := by
  induction is generalizing p with
  | nil => cases h
  | cons i is ih =>
    unfold trail at h
    split at h
    case isTrue => cases h
    case isFalse hp =>
      rcases List.mem_cons.mp h with rfl | h
      · exact ⟨hp, [], i, is, rfl, resolve_nil _⟩
      · obtain ⟨hne, js, j, ks, rfl, rfl⟩ := ih h
        exact ⟨hne, i :: js, j, ks, rfl, by rw [resolve_cons, if_neg hp]⟩

/-- Where different paths lead to different nodes, a path never comes to a node twice. -/
theorem nodup_trail (h : ∀ js ks js' ks', is = js ++ ks → is = js' ++ ks' →
    resolve next null p js ≠ null → resolve next null p js = resolve next null p js' → js = js') :
    (trail next null p is).Nodup := by
  induction is generalizing p with
  | nil => exact List.nodup_nil
  | cons i is ih =>
    unfold trail
    split
    case isTrue => exact List.nodup_nil
    case isFalse hp =>
      have hcons : ∀ js, resolve next null p (i :: js) = resolve next null (next p i) js :=
        fun js => by rw [resolve_cons, if_neg hp]
      refine List.nodup_cons.mpr ⟨fun hmem => ?_, ih fun js ks js' ks' hsplit hsplit' => ?_⟩
      · obtain ⟨hne, js, j, ks, hsplit, heq⟩ := mem_trail hmem
        have hempty := h (i :: js) (j :: ks) [] (i :: is) (congrArg (i :: ·) hsplit) rfl
          (by rw [hcons, heq]; exact hne) (by rw [hcons, heq, resolve_nil])
        cases hempty
      · rw [← hcons, ← hcons]
        intro hne heq
        exact (List.cons.inj (h (i :: js) ks (i :: js') ks' (congrArg (i :: ·) hsplit)
          (congrArg (i :: ·) hsplit') hne heq)).2

/-- What the first null entry of a path is. -/
theorem gap_eq_some {t : ι} (h : gap next null p is = some (n, t)) :
    n ∈ trail next null p is ∧ next n t = null ∧
      ∃ js ks, is = js ++ t :: ks ∧ resolve next null p js = n := by
  induction is generalizing p with
  | nil => cases h
  | cons i is ih =>
    unfold gap at h
    unfold trail
    split at h
    case isTrue => cases h
    case isFalse hp =>
      rw [if_neg hp]
      split at h
      case isTrue hnext =>
        cases h
        exact ⟨List.mem_cons_self, hnext, [], is, rfl, resolve_nil _⟩
      case isFalse =>
        obtain ⟨hmem, hnext, js, ks, rfl, hjs⟩ := ih h
        exact ⟨List.mem_cons_of_mem _ hmem, hnext, i :: js, ks, rfl,
          by rw [resolve_cons, if_neg hp, hjs]⟩

end Null

end LudOS.Lib.Walk
