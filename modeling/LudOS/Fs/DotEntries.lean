import Mathlib.Data.List.Induction
import LudOS.Fs.UserFind

/-!
# The entries `.` and `..` in a path

A lookup resolves `.` and `..` in the middle of a path, and at its end before a slash. They are
links with a full path as their target, which the lookup appends to the path walked so far. What
comes out is the right directory only as long as the path walked so far has no component: at the
root of the whole tree, before the first name.

`DotsAtRoot` is the condition on the path. Under it every lookup follows the walk that the path
describes; where the walk exists and the condition does not hold, the lookup fails or goes astray,
as long as no name has a zero character. With such a name the target of an entry is cut off, so an
entry at the end of a path is the right one if the names on its way have none.
-/

namespace LudOS.Fs.Vfs

open Lib

/-- A process that may look into every directory, with a root and a working directory in the
tree. -/
structure FullAccess (v : Vfs) (p : ProcessData) (root pwd : Nat) : Prop where
  root_eq : p.root = .node root
  pwd_eq : p.pwd = .node pwd
  root_shown : Shown v v.root root
  pwd_shown : Shown v v.root pwd
  root_directory : (v.node root).type = .directory
  pwd_directory : (v.node pwd).type = .directory
  allowed : ∀ n, Shown v v.root n → p.mayAccess (v.node n).stat (readRequest ||| execRequest) = true

/-- The node where the walk along a path starts. -/
def startNode (root pwd : Nat) (path : Str) : Nat := if path.head? ≠ some '/' then pwd else root

/-- The lookup that resolves the links of a call of `user_find`. -/
def innerLookup (v : Vfs) (p : ProcessData) (fuel : Nat) : Str → Except LookupError Handle :=
  v.userFindImpl p fuel (maxSymlinkLoop - 1)

/-- The directory that `user_find` has resolved its way to after `i` components. -/
def resolvedAt (v : Vfs) (p : ProcessData) (fuel : Nat) (path : Str) (i : Nat) :
    Except LookupError Nat := do
  let s ← v.userWalk p fuel (v.innerLookup p fuel) (startOf p path) ((pathList path).take i)
  v.resolveSymlink (v.innerLookup p fuel) s.2 maxSymlinkLoop s.1

/-- The node, or an entry `.` or `..` whose target is the node. -/
def Denotes (v : Vfs) (fuel : Nat) (l : Handle) (e : Nat) : Prop :=
  l = .node e ∨ ∃ n target name, l = .link (.node n) target name ∧ ¬ IsName name ∧
    v.find fuel target = .ok (.node e)

/-- `user_find` follows the walk that the path describes. -/
structure FollowsWalk (v : Vfs) (p : ProcessData) (fuel : Nat) (start : Nat) (path : Str) :
    Prop where
  succeeds : (∃ l, v.userFind p fuel path = .ok l) ↔
    ∃ e, Walks v start (pathList path) e ∧ (isDirPath path = true → (v.node e).type = .directory)
  ends : ∀ l e, v.userFind p fuel path = .ok l → Walks v start (pathList path) e →
    v.Denotes fuel l e
  between : ∀ l, v.userFind p fuel path = .ok l → ∀ i < (pathList path).length, ∀ d,
    Walks v start ((pathList path).take i) d → v.resolvedAt p fuel path i = .ok d

/-- The entries that have to be resolved stand at the root of the tree, before the first name. In
the front part of the path these are the entries that the walk gets to; with a slash at the end it
is also the last component, and one name may stand before it. The place to which an entry at the end
leads has a path that is not cut off. -/
structure DotsAtRoot (v : Vfs) (root start : Nat) (path : Str) : Prop where
  front : ∀ ds m, ds <+: (pathList path).dropLast → Walks v start ds m →
    ∃ k names, ds = List.replicate k dot ++ names ∧ (∀ d ∈ names, IsName d) ∧
      (k ≠ 0 → start = v.root ∧ root = v.root)
  last : ∀ e d, Walks v start (pathList path) e → (pathList path).getLast? = some d → ¬ IsName d →
    Legible v e ∧ (isDirPath path = true → start = v.root ∧ root = v.root ∧
      (pathList path).dropLast.countP (fun d => IsName d) ≤ 1)

section

variable {v : Vfs} {p : ProcessData} {fuel root pwd n m e left : Nat} {d str : Str} {ds : List Str}
  {s s' : Handle × Str} {lookup : Str → Except LookupError Handle} {components : List Str}

/-- The lookup stands at the directory `n`, and the path walked so far has the given components. -/
structure At (v : Vfs) (lookup : Str → Except LookupError Handle) (s : Handle × Str) (n : Nat)
    (components : List Str) : Prop where
  resolved : v.resolveSymlink lookup s.2 maxSymlinkLoop s.1 = .ok n
  shown : Shown v v.root n
  framed : Framed s.2
  components_eq : pathList s.2 = components

theorem entry_child (hd : IsName d) : v.entry n d m = .node m := by
  rw [entry, if_neg hd.1, if_neg hd.2]

/-- From the root of the tree every legible node is found. -/
theorem IsTree.foldlM_position (h : IsTree v) (hacc : FullAccess v p root pwd)
    {lookup : Str → Except LookupError Handle} (he : Legible v e) (str : Str) :
    ∃ str', (v.position e).foldlM (v.userStep p fuel lookup) (.node v.root, str) =
      .ok (.node e, str') := by
  induction he with
  | root =>
    rw [h.position_root]
    exact ⟨str, rfl⟩
  | @child n c hlegible hc hnul ih =>
    have hn := hlegible.shown
    obtain ⟨str', hrun⟩ := ih
    have hresolve : v.resolveSymlink lookup str' maxSymlinkLoop (.node n) = .ok n :=
      resolveSymlink_plain (kind_node (h.plain n hn)) str' maxSymlinkLoop
    have hstep : v.userStep p fuel lookup (.node n, str') (v.node c).name =
        .ok (.node c, str' ++ cStr (v.node n).name ++ ['/']) :=
      (h.userStep_eq_ok (.node n, str') hresolve hn).mpr ⟨h.directory n c hn hc,
        hacc.allowed n hn, c, .child hc, by rw [entry_child (h.isName_child hn hc)]⟩
    refine ⟨str' ++ cStr (v.node n).name ++ ['/'], ?_⟩
    rw [h.position_child hn hc hnul, List.foldlM_append, hrun]
    show [(v.node c).name].foldlM (v.userStep p fuel lookup) (.node n, str') = _
    rw [List.foldlM_cons, hstep]
    rfl

/-- A process whose root is the root of the tree finds every legible directory by a path with its
position. -/
theorem IsTree.userFindImpl_position (h : IsTree v) (hacc : FullAccess v p root pwd)
    (hroot : root = v.root) (he : Legible v e) (hdir : (v.node e).type = .directory)
    {path : Str} (hpath : Framed path) (hposition : pathList path = v.position e) :
    v.userFindImpl p fuel (left + 1) path = .ok (.node e) := by
  have hstart : startOf p path = .node v.root := by
    simp [startOf, hpath.head, hacc.root_eq, hroot]
  obtain ⟨str', hrun⟩ := @IsTree.foldlM_position v p fuel root pwd e h hacc
    (v.userFindImpl p fuel left) he (v.pathOf v.root)
  have hwalk : v.userWalk p fuel (v.userFindImpl p fuel left) (startOf p path) (pathList path) =
      .ok (.node e, str') := by
    rw [userWalk, hstart, path_node (h.plain v.root .root), hposition]
    exact hrun
  rw [userFindImpl, if_neg hpath.ne_nil, hwalk]
  show v.userEnd _ _ _ = _
  rw [userEnd, if_pos hpath.isDirPath, resolveSymlink_plain (kind_node (h.plain e he.shown))]
  show (if (v.node e).type ≠ .directory then _ else _) = _
  rw [if_neg (not_not.mpr hdir)]
  rfl

section

variable (h : IsTree v)

include h

/-- An entry is resolved to its directory while the path walked so far has no component. -/
theorem IsTree.resolveSymlink_root (hacc : FullAccess v p root pwd)
    (hroot : root = v.root) (he : Legible v e) (hdir : (v.node e).type = .directory)
    {target : Str} (hstr : Framed str) (hnone : pathList str = []) {cur : Handle}
    (hkind : v.kind cur = .link target) (htarget : Framed target)
    (hposition : pathList target = v.position e) {rounds : Nat} :
    v.resolveSymlink (v.innerLookup p fuel) str (rounds + 1) cur = .ok e := by
  have hlookup : v.innerLookup p fuel (concat str target) = .ok (.node e) := by
    rw [hstr.concat_eq htarget]
    refine @IsTree.userFindImpl_position v p fuel root pwd e 38 h hacc hroot he hdir _
      (hstr.append htarget) ?_
    rw [hstr.pathList_append, hnone, hposition, List.nil_append]
  rw [resolveSymlink_link hkind, hlookup]
  exact resolveSymlink_plain (kind_node (h.plain e he.shown)) _ _

/-! ## Rounds -/

/-- What a round that succeeds has done. -/
theorem At.of_userStep (hat : At v lookup s n components)
    (hstep : v.userStep p fuel lookup s d = .ok s') :
    (v.node n).type = .directory ∧ ∃ m, Next v n d m ∧
      s' = (v.entry n d m, s.2 ++ cStr (v.node n).name ++ ['/']) := by
  obtain ⟨hdir, -, m, hm, hs'⟩ := (h.userStep_eq_ok s hat.resolved hat.shown).mp hstep
  exact ⟨hdir, m, hm, hs'⟩

theorem At.userStep (hacc : FullAccess v p root pwd)
    (hat : At v lookup s n components) (hdir : (v.node n).type = .directory)
    (hm : Next v n d m) : v.userStep p fuel lookup s d =
      .ok (v.entry n d m, s.2 ++ cStr (v.node n).name ++ ['/']) :=
  (h.userStep_eq_ok s hat.resolved hat.shown).mpr ⟨hdir, hacc.allowed n hat.shown, m, hm, rfl⟩

end

theorem At.pathList_snoc (hat : At v lookup s n components) :
    pathList (s.2 ++ cStr (v.node n).name ++ ['/']) =
      components ++ pathList (cStr (v.node n).name) := by
  rw [Fs.pathList_snoc, hat.framed.pathList_append, hat.components_eq]

/-- A name leads to the child. -/
theorem At.child (h : IsTree v) {lookup : Str → Except LookupError Handle} {components : List Str}
    (hat : At v lookup s n components) (hd : IsName d) (hm : Next v n d m) :
    At v lookup (v.entry n d m, s.2 ++ cStr (v.node n).name ++ ['/']) m
      (components ++ pathList (cStr (v.node n).name)) := by
  have hshown := hm.shown hat.shown
  refine ⟨?_, hshown, hat.framed.snoc _, hat.pathList_snoc⟩
  rw [entry_child hd]
  exact resolveSymlink_plain (kind_node (h.plain m hshown)) _ _

namespace At

variable (h : IsTree v) (hacc : FullAccess v p root pwd) (hroot : root = v.root)
  (hat : At v (v.innerLookup p fuel) s v.root [])

include h hacc hroot hat

/-- The root of the tree leads to itself by `.`. -/
theorem dot_root : At v (v.innerLookup p fuel)
      (v.entry v.root dot v.root, s.2 ++ cStr (v.node v.root).name ++ ['/']) v.root [] := by
  have hnone := hat.pathList_snoc
  rw [h.root_name] at hnone ⊢
  refine ⟨?_, .root, hat.framed.snoc _, hnone⟩
  exact h.resolveSymlink_root hacc hroot .root h.root_directory (hat.framed.snoc _) hnone
    (show v.kind (v.entry v.root dot v.root) = .link (v.pathOf v.root) from rfl)
    (h.framed_pathOf .root h.root_directory).1 rfl

/-- Any number of `.` leads to the root again. -/
theorem dots_root (k : Nat) : Walks v v.root (List.replicate k dot) v.root ∧ ∃ s',
      (List.replicate k dot).foldlM (v.userStep p fuel (v.innerLookup p fuel)) s =
        .ok s' ∧ At v (v.innerLookup p fuel) s' v.root [] := by
  induction k generalizing s with
  | zero => exact ⟨.nil _, s, rfl, hat⟩
  | succ k ih =>
    obtain ⟨hwalk, s', hrun, hat'⟩ := ih (hat.dot_root h hacc hroot)
    refine ⟨.cons h.root_directory .dot hwalk, s', ?_, hat'⟩
    rw [List.replicate_succ, List.foldlM_cons, hat.userStep h hacc h.root_directory .dot]
    exact hrun

end At

/-- A walk along names is followed. -/
theorem At.names (h : IsTree v) (hacc : FullAccess v p root pwd)
    (hat : At v lookup s n components) (hds : ∀ d ∈ ds, IsName d) (hwalk : Walks v n ds e) :
    ∃ s' components', ds.foldlM (v.userStep p fuel lookup) s = .ok s' ∧
      At v lookup s' e components' := by
  induction hwalk generalizing s components with
  | nil => exact ⟨s, components, rfl, hat⟩
  | @cons n m e d ds hdir hm hrest ih =>
    obtain ⟨s', components', hrun, hat'⟩ := ih (hat.child h (hds d List.mem_cons_self) hm)
      fun d' hd' => hds d' (List.mem_cons_of_mem d hd')
    refine ⟨s', components', ?_, hat'⟩
    rw [List.foldlM_cons, hat.userStep h hacc hdir hm]
    exact hrun

/-- With at most one name the path walked before the last directory still has no component. -/
theorem At.components_of_run (h : IsTree v) (hat : At v lookup s v.root []) (hlen : ds.length ≤ 1)
    (hrun : ds.foldlM (v.userStep p fuel lookup) s = .ok s') : pathList s'.2 = [] := by
  cases ds with
  | nil =>
    cases hrun
    exact hat.components_eq
  | cons d ds =>
    obtain rfl : ds = [] := List.eq_nil_of_length_eq_zero (by simpa using hlen)
    obtain ⟨s₁, hstep, hrest⟩ := except_bind_eq_ok.mp hrun
    obtain ⟨-, m, -, rfl⟩ := hat.of_userStep h hstep
    cases hrest
    rw [hat.pathList_snoc, h.root_name]
    rfl

/-! ## Paths with their entries at the root -/

theorem FullAccess.startNode (hacc : FullAccess v p root pwd) (path : Str) :
    startOf p path = .node (startNode root pwd path) ∧ Shown v v.root (startNode root pwd path) ∧
      (v.node (startNode root pwd path)).type = .directory := by
  unfold startOf Vfs.startNode
  split
  · exact ⟨hacc.pwd_eq, hacc.pwd_shown, hacc.pwd_directory⟩
  · exact ⟨hacc.root_eq, hacc.root_shown, hacc.root_directory⟩

/-- The lookup stands at its start. -/
theorem IsTree.at_start (h : IsTree v) {lookup : Str → Except LookupError Handle}
    (hn : Shown v v.root n) (hdir : (v.node n).type = .directory) :
    At v lookup (.node n, v.pathOf n) n (v.position n) :=
  ⟨resolveSymlink_plain (kind_node (h.plain n hn)) _ _, hn, (h.framed_pathOf hn hdir).1, rfl⟩

namespace At

variable {k : Nat} (h : IsTree v) (hacc : FullAccess v p root pwd)
  (hat : At v (v.innerLookup p fuel) s n components)
  (hk : k ≠ 0 → n = v.root ∧ root = v.root ∧ components = [])

include h hacc hat hk

/-- The dots in front do not move the walk. -/
theorem dots : Walks v n (List.replicate k dot) n ∧ ∃ s',
      (List.replicate k dot).foldlM (v.userStep p fuel (v.innerLookup p fuel)) s =
        .ok s' ∧ At v (v.innerLookup p fuel) s' n components := by
  by_cases hzero : k = 0
  · subst hzero
    exact ⟨.nil n, s, rfl, hat⟩
  · obtain ⟨rfl, hroot, rfl⟩ := hk hzero
    exact hat.dots_root h hacc hroot k

/-- A walk with its dots in front is followed. -/
theorem dots_names (hds : ∀ d ∈ ds, IsName d) (hwalk : Walks v n (List.replicate k dot ++ ds) e) :
    ∃ s' components', (List.replicate k dot ++ ds).foldlM
        (v.userStep p fuel (v.innerLookup p fuel)) s = .ok s' ∧
      At v (v.innerLookup p fuel) s' e components' ∧
      (n = v.root → components = [] → ds.length ≤ 1 → components' = []) := by
  obtain ⟨hdots, t, hrun, hat'⟩ := hat.dots h hacc hk
  obtain ⟨n', hdots', hnames⟩ := hwalk.split
  cases h.walks_unique hat.shown hdots hdots'
  obtain ⟨s', components', hrun', hat''⟩ := hat'.names h hacc hds hnames
  refine ⟨s', components', ?_, hat'', ?_⟩
  · rw [List.foldlM_append, hrun]
    exact hrun'
  · rintro rfl rfl hlen
    rw [← hat''.components_eq]
    exact hat'.components_of_run h hlen hrun'

end At

theorem head_intercalate (ps : List Str) :
    (['/'].intercalate ([] :: ps).dropLast ++ ['/']).head? = some '/' := by
  cases ps with
  | nil => rfl
  | cons q ps =>
    cases ps with
    | nil => rfl
    | cons r ps => simp [List.intercalate]

/-- A parent path starts and ends with a slash. -/
theorem Framed.parentPath {t : Str} (h : Framed str) (ht : nul ∉ t) :
    Framed (parentPath (str ++ t)) := by
  refine ⟨?_, ⟨_, parentPath_eq (nul_not_mem_append h.no_nul ht)⟩, nul_not_mem_concat _ _⟩
  rw [parentPath_eq (nul_not_mem_append h.no_nul ht)]
  obtain ⟨rest, rfl⟩ : ∃ rest, str = '/' :: rest := by
    cases str with
    | nil => cases h.head
    | cons c rest =>
      cases h.head
      exact ⟨rest, rfl⟩
  exact head_intercalate _

/-- What a round appends has no zero character. -/
theorem nul_not_mem_snoc (name : Str) : nul ∉ cStr name ++ ['/'] :=
  nul_not_mem_append (nul_not_mem_cStr name) (by decide)

theorem IsTree.no_slash (h : IsTree v) (hn : Shown v v.root n) : '/' ∉ (v.node n).name := by
  cases hn with
  | root => simp [h.root_name]
  | @child q _ hq hn => exact (h.validName q n hq hn).no_slash

/-- A component of a directory leads to a directory unless it is a name. -/
theorem IsTree.next_directory (h : IsTree v) (hn : Shown v v.root n)
    (hdir : (v.node n).type = .directory) (hm : Next v n d m) (hd : ¬ IsName d) :
    (v.node m).type = .directory := by
  rcases h.next_cases hn hm with ⟨hname, -⟩ | ⟨-, rfl⟩ | ⟨-, hq, hmem⟩
  · exact absurd hname hd
  · exact hdir
  · exact h.directory m n hq hmem

/-- The end of a lookup that stands in the last directory. -/
theorem At.userEnd_eq (h : IsTree v) (hacc : FullAccess v p root pwd)
    (hat : At v (v.innerLookup p fuel) s n components)
    (hdir : (v.node n).type = .directory) (hm : Next v n d m) (isDir : Bool)
    (hdots : isDir = true → ¬ IsName d → root = v.root ∧ components = [] ∧ Legible v m) :
    v.userEnd (v.innerLookup p fuel) isDir
        (v.entry n d m, s.2 ++ cStr (v.node n).name ++ ['/']) = if isDir then
        if (v.node m).type ≠ .directory then .error (.errno .enotdir) else .ok (.node m)
      else .ok (v.entry n d m) := by
  cases isDir with
  | false => rfl
  | true =>
    have hresolve : v.resolveSymlink (v.innerLookup p fuel)
        (parentPath (s.2 ++ cStr (v.node n).name ++ ['/'])) maxSymlinkLoop (v.entry n d m) =
        .ok m := by
      have hshown := hm.shown hat.shown
      rcases h.entry_kind hat.shown hdir hm with ⟨-, hentry⟩ | ⟨target, hkind, hframed, hposition⟩
      · rw [hentry]
        exact resolveSymlink_plain (kind_node (h.plain m hshown)) _ _
      · have hd : ¬ IsName d := by
          intro hd
          rw [entry_child hd, kind_node (h.plain m hshown)] at hkind
          cases hkind
        obtain ⟨hroot, rfl, hlegible⟩ := hdots rfl hd
        rw [List.append_assoc]
        refine h.resolveSymlink_root hacc hroot hlegible (h.next_directory hat.shown hdir hm hd)
          (hat.framed.parentPath (nul_not_mem_snoc _)) ?_ hkind hframed hposition
        rw [← List.append_assoc, hat.framed.pathList_parentPath (h.no_slash hat.shown),
          hat.components_eq]
    rw [userEnd, if_pos rfl, if_pos rfl, hresolve]
    rfl

/-- An entry denotes the node that its component leads to, if the path of that node is not cut
off. -/
theorem IsTree.denotes_entry (h : IsTree v) (hn : Shown v v.root n)
    (hdir : (v.node n).type = .directory) (hm : Next v n d m)
    (hlegible : ¬ IsName d → Legible v m) :
    v.Denotes fuel (v.entry n d m) m := by
  rcases h.next_cases hn hm with ⟨hd, -, -⟩ | ⟨rfl, rfl⟩ | ⟨rfl, hq, hmem⟩
  · exact .inl (entry_child hd)
  · refine .inr ⟨m, _, dot, rfl, by decide, ?_⟩
    exact h.findWith_of_position (hlegible (by decide)) rfl (h.framed_pathOf hn hdir).1.ne_nil fuel
  · refine .inr ⟨n, _, dotDot, rfl, by decide, ?_⟩
    have hframed := (h.framed_pathOf hq (h.directory m n hq hmem)).2
    exact h.findWith_of_position (hlegible (by decide)) (h.host_eq hq).2.1 hframed.ne_nil fuel

namespace IsTree

variable (h : IsTree v) (hacc : FullAccess v p root pwd)

include h hacc

/-- `user_find` of a path that is not empty. -/
theorem userFind_eq {path : Str} (hne : path ≠ []) : v.userFind p fuel path =
      (pathList path).foldlM (v.userStep p fuel (v.innerLookup p fuel))
          (.node (startNode root pwd path), v.pathOf (startNode root pwd path)) >>=
        v.userEnd (v.innerLookup p fuel) (isDirPath path) := by
  obtain ⟨hstart, hshown, -⟩ := hacc.startNode path
  have hwalk : v.userWalk p fuel (v.innerLookup p fuel) (startOf p path) (pathList path) =
      (pathList path).foldlM (v.userStep p fuel (v.innerLookup p fuel))
        (.node (Vfs.startNode root pwd path), v.pathOf (Vfs.startNode root pwd path)) := by
    rw [userWalk, hstart, path_node (h.plain _ hshown)]
  rw [← hwalk]
  show v.userFindImpl p fuel (39 + 1) path = _
  rw [userFindImpl, if_neg hne]
  rfl

theorem resolvedAt_eq (path : Str) (i : Nat) : v.resolvedAt p fuel path i =
      ((pathList path).take i).foldlM (v.userStep p fuel (v.innerLookup p fuel))
          (.node (startNode root pwd path), v.pathOf (startNode root pwd path)) >>= fun s =>
        v.resolveSymlink (v.innerLookup p fuel) s.2 maxSymlinkLoop s.1 := by
  obtain ⟨hstart, hshown, -⟩ := hacc.startNode path
  rw [resolvedAt, userWalk, hstart, path_node (h.plain _ hshown)]

/-- A path that is only slashes names the start. -/
theorem followsWalk_nil {path : Str} (hne : path ≠ []) (hnil : pathList path = []) :
    FollowsWalk v p fuel (startNode root pwd path) path := by
  obtain ⟨-, hshown, hdir⟩ := hacc.startNode path
  have hrun : v.userFind p fuel path = .ok (.node (Vfs.startNode root pwd path)) := by
    rw [h.userFind_eq hacc hne, hnil]
    show v.userEnd _ _ (.node _, _) = _
    unfold userEnd
    split
    · rw [resolveSymlink_plain (kind_node (h.plain _ hshown))]
      show (if (v.node _).type ≠ .directory then _ else _) = _
      rw [if_neg (not_not.mpr hdir)]
      rfl
    · rfl
  refine ⟨⟨fun _ => ?_, fun _ => ⟨_, hrun⟩⟩, fun l e hl he => ?_, fun l _ i hi => ?_⟩
  · rw [hnil]
    exact ⟨_, .nil _, fun _ => hdir⟩
  · rw [hnil] at he
    cases he
    rw [hrun] at hl
    cases hl
    exact .inl rfl
  · rw [hnil] at hi
    cases hi

end IsTree

theorem countP_dots_names {k : Nat} {names : List Str} (hnames : ∀ d ∈ names, IsName d) :
    (List.replicate k dot ++ names).countP (fun d => IsName d) = names.length := by
  have hdots : (List.replicate k dot).countP (fun d => IsName d) = 0 := by
    refine List.countP_eq_zero.mpr fun d hd => ?_
    rw [List.eq_of_mem_replicate hd]
    decide
  have hrest : names.countP (fun d => IsName d) = names.length :=
    List.countP_eq_length.mpr fun d hd => decide_eq_true (hnames d hd)
  rw [List.countP_append, hdots, hrest, Nat.zero_add]

section

variable {path last : Str} {inner : List Str}

namespace DotsAtRoot

variable (hdots : DotsAtRoot v root (startNode root pwd path) path) (h : IsTree v)
  (hacc : FullAccess v p root pwd) (hcs : pathList path = inner ++ [last])

include hdots h hacc hcs

/-- A front part of the path that can be walked is followed. With at most one name in it, the path
walked before the last directory has no component. -/
theorem front_at (hds : ds <+: inner) (hwalk : Walks v (startNode root pwd path) ds n) :
    ∃ s components, ds.foldlM (v.userStep p fuel (v.innerLookup p fuel))
        (.node (startNode root pwd path), v.pathOf (startNode root pwd path)) = .ok s ∧
      At v (v.innerLookup p fuel) s n components ∧
      (startNode root pwd path = v.root → ds.countP (fun d => IsName d) ≤ 1 → components = []) := by
  obtain ⟨-, hshown, hdir⟩ := hacc.startNode path
  have hfront : ds <+: (pathList path).dropLast := by rwa [hcs, List.dropLast_concat]
  obtain ⟨k, names, rfl, hnames, hk⟩ := hdots.front ds n hfront hwalk
  have hstart := @IsTree.at_start v _ h (v.innerLookup p fuel) hshown hdir
  have hnone : Vfs.startNode root pwd path = v.root →
      v.position (Vfs.startNode root pwd path) = [] := by
    intro heq
    rw [heq, h.position_root]
  obtain ⟨s, components, hrun, hat, hlen⟩ := hstart.dots_names h hacc
    (fun hne => ⟨(hk hne).1, (hk hne).2, hnone (hk hne).1⟩) hnames hwalk
  refine ⟨s, components, hrun, hat, fun heq hcount => ?_⟩
  rw [countP_dots_names hnames] at hcount
  exact hlen heq (hnone heq) hcount

/-- A front part of the path that the lookup has taken can be walked. -/
theorem front_walks (hds : ds <+: inner)
    (hrun : ds.foldlM (v.userStep p fuel (v.innerLookup p fuel))
      (.node (startNode root pwd path), v.pathOf (startNode root pwd path)) = .ok s) :
    ∃ n, Walks v (startNode root pwd path) ds n := by
  induction ds using List.reverseRecOn generalizing s with
  | nil => exact ⟨_, .nil _⟩
  | append_singleton ds d ih =>
    have hshort : ds <+: inner := (List.prefix_append ds [d]).trans hds
    rw [List.foldlM_append] at hrun
    obtain ⟨t, hfirst, hlast⟩ := except_bind_eq_ok.mp hrun
    obtain ⟨n, hwalk⟩ := ih hshort hfirst
    obtain ⟨t', components, hrun', hat, -⟩ :=
      @front_at v p fuel root pwd n ds path last inner hdots h hacc hcs hshort hwalk
    cases hfirst.symm.trans hrun'
    obtain ⟨s', hstep, -⟩ := except_bind_eq_ok.mp hlast
    obtain ⟨hdir, m, hm, -⟩ := hat.of_userStep h hstep
    exact ⟨m, hwalk.append (.cons hdir hm (.nil m))⟩

/-- The end of the lookup, where the walk exists. -/
theorem userEnd_eq {components : List Str} (hwalk : Walks v (startNode root pwd path) inner n)
    (hat : At v (v.innerLookup p fuel) s n components)
    (hnone : startNode root pwd path = v.root → inner.countP (fun d => IsName d) ≤ 1 →
      components = [])
    (hn : (v.node n).type = .directory) (hm : Next v n last m) :
    v.userEnd (v.innerLookup p fuel) (isDirPath path)
        (v.entry n last m, s.2 ++ cStr (v.node n).name ++ ['/']) = if isDirPath path then
        if (v.node m).type ≠ .directory then .error (.errno .enotdir) else .ok (.node m)
      else .ok (v.entry n last m) := by
  refine hat.userEnd_eq h hacc hn hm (isDirPath path) fun hisDir hd => ?_
  have hall : Walks v (Vfs.startNode root pwd path) (pathList path) m :=
    hcs ▸ hwalk.append (.cons hn hm (.nil m))
  obtain ⟨hlegible, hslash⟩ := hdots.last m last hall (by rw [hcs, List.getLast?_concat]) hd
  obtain ⟨hstart, hroot, hcount⟩ := hslash hisDir
  rw [hcs, List.dropLast_concat] at hcount
  exact ⟨hroot, hnone hstart hcount, hlegible⟩

/-- A lookup that succeeds has followed a walk. -/
theorem walks_of_userFind (hne : path ≠ []) {l : Handle} (hrun : v.userFind p fuel path = .ok l) :
    ∃ e, Walks v (startNode root pwd path) (pathList path) e ∧
      (isDirPath path = true → (v.node e).type = .directory) ∧ v.Denotes fuel l e := by
  rw [h.userFind_eq hacc hne, hcs, List.foldlM_append] at hrun
  obtain ⟨s', hwalk, hend⟩ := except_bind_eq_ok.mp hrun
  obtain ⟨s, hinner, hstep⟩ := except_bind_eq_ok.mp hwalk
  obtain ⟨n, hwalks⟩ := hdots.front_walks h hacc hcs (List.prefix_refl inner) hinner
  obtain ⟨s₁, components, hinner', hat, hnone⟩ :=
    @front_at v p fuel root pwd n inner path last inner hdots h hacc hcs (List.prefix_refl inner)
      hwalks
  cases hinner.symm.trans hinner'
  obtain ⟨t, hstep, hrest⟩ := except_bind_eq_ok.mp hstep
  obtain ⟨hn, m, hm, rfl⟩ := hat.of_userStep h hstep
  cases hrest
  have hall : Walks v (Vfs.startNode root pwd path) (pathList path) m :=
    hcs ▸ hwalks.append (.cons hn hm (.nil m))
  have hend := (hdots.userEnd_eq h hacc hcs hwalks hat hnone hn hm).symm.trans hend
  refine ⟨m, hall, ?_⟩
  cases hisDir : isDirPath path with
  | false =>
    rw [hisDir, if_neg Bool.false_ne_true] at hend
    cases hend
    refine ⟨fun hfalse => absurd hfalse Bool.false_ne_true, h.denotes_entry hat.shown hn hm ?_⟩
    exact fun hd => (hdots.last m last hall (by rw [hcs, List.getLast?_concat]) hd).1
  | true =>
    rw [hisDir, if_pos rfl] at hend
    split at hend
    · cases hend
    · rename_i hdir'
      cases hend
      exact ⟨fun _ => not_not.mp hdir', .inl rfl⟩

/-- A walk is found. -/
theorem userFind_of_walks (hne : path ≠ [])
    (hwalk : Walks v (startNode root pwd path) (pathList path) e)
    (hisDir : isDirPath path = true → (v.node e).type = .directory) :
    ∃ l, v.userFind p fuel path = .ok l := by
  rw [hcs] at hwalk
  obtain ⟨n, hinner, hrest⟩ := hwalk.split
  cases hrest with
  | cons hn hm hnil =>
    cases hnil
    obtain ⟨s, components, hrun, hat, hnone⟩ :=
      @front_at v p fuel root pwd n inner path last inner hdots h hacc hcs (List.prefix_refl inner)
        hinner
    have hall : (pathList path).foldlM (v.userStep p fuel (v.innerLookup p fuel))
        (.node (startNode root pwd path), v.pathOf (startNode root pwd path)) =
        .ok (v.entry n last e, s.2 ++ cStr (v.node n).name ++ ['/']) := by
      rw [hcs, List.foldlM_append, hrun]
      show [last].foldlM (v.userStep p fuel (v.innerLookup p fuel)) s = _
      rw [List.foldlM_cons, hat.userStep h hacc hn hm]
      rfl
    rw [h.userFind_eq hacc hne, hall]
    show ∃ l, v.userEnd (v.innerLookup p fuel) (isDirPath path) _ = .ok l
    rw [hdots.userEnd_eq h hacc hcs hinner hat hnone hn hm]
    split
    · rename_i htrue
      exact ⟨_, if_neg (not_not.mpr (hisDir htrue))⟩
    · exact ⟨_, rfl⟩

/-- A front part of the path is resolved to the directory of the walk. -/
theorem resolvedAt_of_walks {i : Nat} (hi : i < (pathList path).length)
    (hwalk : Walks v (startNode root pwd path) ((pathList path).take i) e) :
    v.resolvedAt p fuel path i = .ok e := by
  have htake : (pathList path).take i = inner.take i := by
    rw [hcs, List.length_append, List.length_singleton] at hi
    rw [hcs, List.take_append_of_le_length (by omega)]
  rw [htake] at hwalk
  obtain ⟨s, components, hrun, hat, -⟩ :=
    @front_at v p fuel root pwd e _ path last inner hdots h hacc hcs
      (List.take_prefix i inner) hwalk
  rw [h.resolvedAt_eq hacc, htake, hrun]
  exact hat.resolved

end DotsAtRoot

end

section

variable (h : IsTree v)

include h

/-- With its entries at the root of the tree a path is followed. -/
theorem IsTree.followsWalk (hacc : FullAccess v p root pwd) {path : Str}
    (hne : path ≠ []) (hdots : DotsAtRoot v root (startNode root pwd path) path) :
    FollowsWalk v p fuel (startNode root pwd path) path := by
  rcases List.eq_nil_or_concat' (pathList path) with hnil | ⟨inner, last, hcs⟩
  · exact h.followsWalk_nil hacc hne hnil
  obtain ⟨-, hshown, -⟩ := hacc.startNode path
  refine ⟨⟨?_, ?_⟩, fun l e hl he => ?_, fun l _ i hi e he => ?_⟩
  · rintro ⟨l, hl⟩
    obtain ⟨e, hwalk, hisDir, -⟩ := hdots.walks_of_userFind h hacc hcs hne hl
    exact ⟨e, hwalk, hisDir⟩
  · rintro ⟨e, hwalk, hisDir⟩
    exact hdots.userFind_of_walks h hacc hcs hne hwalk hisDir
  · obtain ⟨e', hwalk, -, hdenotes⟩ := hdots.walks_of_userFind h hacc hcs hne hl
    cases h.walks_unique hshown hwalk he
    exact hdenotes
  · exact hdots.resolvedAt_of_walks h hacc hcs hi he

end

/-! ## Paths that are followed -/

/-- No name in the tree has a zero character. -/
def NulFree (v : Vfs) : Prop := ∀ n, Shown v v.root n → nul ∉ (v.node n).name

theorem NulFree.legible (hfree : NulFree v) (hn : Shown v v.root n) : Legible v n := by
  induction hn with
  | root => exact .root
  | @child n c hn hc ih => exact .child ih hc (hfree c (.child hn hc))

section

variable (h : IsTree v) (hfree : NulFree v)

include h

/-- The root of the tree is nobody's child. -/
theorem IsTree.root_not_mem (hn : Shown v v.root n) : v.root ∉ v.listing n := by
  intro hmem
  have hparent := h.parent n v.root hn hmem
  rw [h.root_parent] at hparent
  cases hparent

include hfree

/-- The root has no name, every other node a valid one. -/
theorem IsTree.pathList_name (hn : Shown v v.root n) :
    (n = v.root ∧ pathList (cStr (v.node n).name) = []) ∨
      (IsName (v.node n).name ∧ pathList (cStr (v.node n).name) = [(v.node n).name]) := by
  rw [cStr_eq_self (hfree n hn)]
  cases hn with
  | root => exact .inl ⟨rfl, by rw [h.root_name]; rfl⟩
  | @child q _ hq hn =>
    have hvalid := h.validName q n hq hn
    exact .inr ⟨h.isName_child hq hn, Fs.pathList_name hvalid.no_slash hvalid.nonempty⟩

theorem At.isName_snoc (hat : At v lookup s n components) (hnames : ∀ d ∈ components, IsName d) :
    ∀ d ∈ components ++ pathList (cStr (v.node n).name), IsName d := by
  intro d hd
  rcases List.mem_append.mp hd with hd | hd
  · exact hnames d hd
  · rcases h.pathList_name hfree hat.shown with ⟨-, hnone⟩ | ⟨hname, hone⟩
    · rw [hnone] at hd
      cases hd
    · rw [hone, List.mem_singleton] at hd
      rw [hd]
      exact hname

/-- An entry that is resolved to its directory stands where the path walked so far has no
component, and the root of the process is the root of the tree. -/
theorem IsTree.components_of_resolved (hacc : FullAccess v p root pwd)
    (hn : Shown v v.root n) (hdir : (v.node n).type = .directory) (hm : Next v n d m)
    (hd : ¬ IsName d) (hstr : Framed str) (hnames : ∀ d ∈ pathList str, IsName d)
    (hresolve : v.resolveSymlink (v.innerLookup p fuel) str maxSymlinkLoop (v.entry n d m) =
      .ok m) : root = v.root ∧ pathList str = [] := by
  rcases h.entry_kind hn hdir hm with ⟨hname, -⟩ | ⟨target, hkind, htarget, hposition⟩
  · exact absurd hname hd
  have hall : ∀ d ∈ pathList str ++ pathList target, IsName d := by
    intro d hd
    rcases List.mem_append.mp hd with hd | hd
    · exact hnames d hd
    · rw [hposition] at hd
      exact h.isName_of_mem_position (hfree.legible (hm.shown hn)) hd
  obtain ⟨-, hplace⟩ := @IsTree.resolveSymlink_names v p fuel m h root 39 hacc.root_eq
    hacc.root_shown str target hstr htarget hall _ hkind 39 hresolve
  rw [hposition, ← List.append_assoc] at hplace
  have hnone := List.append_left_eq_self.mp hplace.symm
  obtain ⟨hroot, hnone⟩ := List.append_eq_nil_iff.mp hnone
  refine ⟨?_, hnone⟩
  exact h.position_inj (hfree.legible hacc.root_shown) .root (hroot.trans h.position_root.symm)

/-- A walk whose directories are all resolved as they should has its dots in front, at the root.
The path walked has no component at its end only if at most one name follows. -/
theorem At.dots_of_resolved (hacc : FullAccess v p root pwd)
    (hat : At v (v.innerLookup p fuel) s n components) (hcomponents : ∀ d ∈ components, IsName d)
    (hwalk : Walks v n ds e) (hfollow : ∀ i ≤ ds.length, ∀ m, Walks v n (ds.take i) m → ∃ s',
      (ds.take i).foldlM (v.userStep p fuel (v.innerLookup p fuel)) s = .ok s' ∧
        v.resolveSymlink (v.innerLookup p fuel) s'.2 maxSymlinkLoop s'.1 = .ok m) :
    ∃ k names, ds = List.replicate k dot ++ names ∧ (∀ d ∈ names, IsName d) ∧
      (k ≠ 0 → n = v.root ∧ root = v.root) ∧ ∃ s' components',
      ds.foldlM (v.userStep p fuel (v.innerLookup p fuel)) s = .ok s' ∧
        At v (v.innerLookup p fuel) s' e components' ∧ (∀ d ∈ components', IsName d) ∧
        (components' = [] → components = [] ∧ names.length ≤ 1 ∧ (names ≠ [] → n = v.root)) := by
  induction hwalk generalizing s components with
  | nil =>
    exact ⟨0, [], rfl, by simp, fun hne => absurd rfl hne, s, components, rfl, hat, hcomponents,
      fun hnone => ⟨hnone, Nat.zero_le 1, fun hne => absurd rfl hne⟩⟩
  | @cons n m e d ds hdir hm hrest ih =>
    have hstep : v.userStep p fuel (v.innerLookup p fuel) s d =
        .ok (v.entry n d m, s.2 ++ cStr (v.node n).name ++ ['/']) := hat.userStep h hacc hdir hm
    obtain ⟨s₁, hrun₁, hresolve⟩ := hfollow 1 (by simp) m (.cons hdir hm (.nil m))
    obtain ⟨t, ht, hnil⟩ := except_bind_eq_ok.mp hrun₁
    cases hstep.symm.trans ht
    cases hnil
    have hat₁ : At v (v.innerLookup p fuel) _ m _ :=
      ⟨hresolve, hm.shown hat.shown, hat.framed.snoc _, hat.pathList_snoc⟩
    have hsnoc := hat.isName_snoc h hfree hcomponents
    obtain ⟨k, names, hds, hnames, hk, s', components', hrun, hat', hnames', hnone⟩ :=
      ih hat₁ hsnoc (by
      intro i hi m' hwalk'
      obtain ⟨s', hrun', hresolve'⟩ := hfollow (i + 1) (by simpa using hi) m' (.cons hdir hm hwalk')
      rw [List.take_succ_cons, List.foldlM_cons, hstep] at hrun'
      exact ⟨s', hrun', hresolve'⟩)
    have hall : (d :: ds).foldlM (v.userStep p fuel (v.innerLookup p fuel)) s = .ok s' := by
      rw [List.foldlM_cons, hstep]
      exact hrun
    have hlen : components ++ pathList (cStr (v.node n).name) = [] →
        components = [] ∧ n = v.root := by
      intro hnil
      obtain ⟨hnil, hname⟩ := List.append_eq_nil_iff.mp hnil
      rcases h.pathList_name hfree hat.shown with ⟨hroot, -⟩ | ⟨-, hone⟩
      · exact ⟨hnil, hroot⟩
      · rw [hone] at hname
        cases hname
    by_cases hd : IsName d
    · -- a child is not the root, so no dots can follow
      rcases h.next_cases hat.shown hm with ⟨-, hc, -⟩ | ⟨rfl, -⟩ | ⟨rfl, -⟩
      · have hm' : m ≠ v.root := by
          rintro rfl
          exact h.root_not_mem hat.shown hc
        have hzero : k = 0 := by
          by_contra hne
          exact hm' (hk hne).1
        subst hzero
        refine ⟨0, d :: names, by simpa using hds, List.forall_mem_cons.mpr ⟨hd, hnames⟩,
          fun hne => absurd rfl hne, s', components', hall, hat', hnames', fun hnil => ?_⟩
        obtain ⟨hnil', -, hroot⟩ := hnone hnil
        obtain ⟨hempty, hn⟩ := hlen hnil'
        have hlast : names = [] := by
          by_contra hne
          exact hm' (hroot hne)
        exact ⟨hempty, by simp [hlast], fun _ => hn⟩
      · exact absurd rfl hd.1
      · exact absurd rfl hd.2
    · -- the entry has been resolved, so nothing but the root has been walked
      obtain ⟨hroot, hnil⟩ := h.components_of_resolved hfree hacc hat.shown hdir hm hd
        (hat.framed.snoc _) (hat.pathList_snoc ▸ hsnoc) hresolve
      rw [hat.pathList_snoc] at hnil
      obtain ⟨hempty, rfl⟩ := hlen hnil
      rcases h.next_cases hat.shown hm with ⟨hname, -⟩ | ⟨rfl, rfl⟩ | ⟨-, hq, hmem⟩
      · exact absurd hname hd
      · refine ⟨k + 1, names, by rw [hds]; rfl, hnames, fun _ => ⟨rfl, hroot⟩, s', components',
          hall, hat', hnames', fun hnil' => ?_⟩
        exact ⟨hempty, (hnone hnil').2.1, fun _ => rfl⟩
      · exact absurd hmem (h.root_not_mem hq)

/-- Where the walk exists, a path that is followed has its entries at the root of the tree. -/
theorem IsTree.dotsAtRoot_of_followsWalk (hacc : FullAccess v p root pwd)
    {path : Str} (hne : path ≠ []) (hwalk : Walks v (startNode root pwd path) (pathList path) e)
    (hisDir : isDirPath path = true → (v.node e).type = .directory)
    (hfollow : FollowsWalk v p fuel (startNode root pwd path) path) :
    DotsAtRoot v root (startNode root pwd path) path := by
  rcases List.eq_nil_or_concat' (pathList path) with hnil | ⟨inner, last, hcs⟩
  · refine ⟨fun ds m hds _ => ⟨0, [], ?_, by simp, fun hk => absurd rfl hk⟩, by simp [hnil]⟩
    rw [hnil] at hds
    exact List.prefix_nil.mp hds
  obtain ⟨-, hshown, hdir⟩ := hacc.startNode path
  have hstart := @IsTree.at_start v _ h (v.innerLookup p fuel) hshown hdir
  obtain ⟨l, hl⟩ := hfollow.succeeds.mpr ⟨e, hwalk, hisDir⟩
  have hwalk' := hwalk
  rw [hcs] at hwalk'
  obtain ⟨n, hinner, hrest⟩ := hwalk'.split
  obtain ⟨k, names, hds, hnames, hk, s, components, hrun, hat, hcomponents, hnone⟩ :=
    hstart.dots_of_resolved h hfree hacc
      (fun _ => h.isName_of_mem_position (hfree.legible hshown)) hinner (by
      intro i hi m hm
      have htake : (pathList path).take i = inner.take i := by
        rw [hcs, List.take_append_of_le_length hi]
      have hresolved := hfollow.between l hl i (by rw [hcs, List.length_append]; simp; omega) m
        (htake ▸ hm)
      rw [h.resolvedAt_eq hacc, htake] at hresolved
      exact except_bind_eq_ok.mp hresolved)
  have hfront : (pathList path).dropLast = List.replicate k dot ++ names := by
    rw [hcs, List.dropLast_concat, hds]
  refine ⟨fun ds m hpre _ => ?_,
    fun e' d he' hd hd' => ⟨hfree.legible (he'.shown hshown), fun htrue => ?_⟩⟩
  · rw [hfront] at hpre
    refine ⟨min ds.length k, names.take (ds.length - k), ?_,
      fun d hd => hnames d (List.mem_of_mem_take hd), fun hne => hk (by omega)⟩
    refine (List.prefix_iff_eq_take.mp hpre).trans ?_
    rw [List.take_append, List.take_replicate, List.length_replicate]
  cases h.walks_unique hshown hwalk he'
  rw [hcs, List.getLast?_concat] at hd
  cases hd
  cases hrest with
  | cons hn hm hnil =>
    cases hnil
    have hdenotes := hfollow.ends l e hl hwalk
    rw [h.userFind_eq hacc hne, hcs, List.foldlM_append, hrun, htrue] at hl
    obtain ⟨s', hlast, hend⟩ := except_bind_eq_ok.mp hl
    obtain ⟨t, hstep, hnil⟩ :=
      except_bind_eq_ok.mp (show [last].foldlM (v.userStep p fuel (v.innerLookup p fuel)) s =
        .ok s' from hlast)
    cases (hat.userStep h hacc hn hm).symm.trans hstep
    cases hnil
    -- the slash at the end has resolved the entry to the node that is returned
    obtain ⟨j, hresolve, hend⟩ := except_bind_eq_ok.mp hend
    have hj : l = .node j := by
      split at hend
      · cases hend
      · cases hend
        rfl
    have hje : j = e := by
      rcases hdenotes with heq | ⟨_, _, _, heq, -⟩
      · rw [hj] at heq
        cases heq
        rfl
      · rw [hj] at heq
        cases heq
    have hparent := hat.framed.pathList_parentPath (h.no_slash hat.shown)
    rw [hat.components_eq] at hparent
    have hframed := hat.framed.parentPath (nul_not_mem_snoc (v.node n).name)
    rw [← List.append_assoc] at hframed
    obtain ⟨hroot, hnil⟩ := h.components_of_resolved hfree hacc hat.shown hn hm hd' hframed
      (hparent ▸ hcomponents) (hje ▸ hresolve)
    obtain ⟨hposition, hlen, -⟩ := hnone (hparent.symm.trans hnil)
    refine ⟨?_, hroot, ?_⟩
    · exact h.position_inj (hfree.legible hshown) .root (hposition.trans h.position_root.symm)
    · rw [hfront, countP_dots_names hnames]
      exact hlen

end

/-- The lookup follows the walk where the entries of the path that have to be resolved stand at the
root of the tree. Where the walk exists and no name has a zero character, it does so in no other
case. -/
theorem user_find_follows_iff (h : IsTree v) (hacc : FullAccess v p root pwd) {path : Str}
    (hne : path ≠ []) : (DotsAtRoot v root (startNode root pwd path) path →
      FollowsWalk v p fuel (startNode root pwd path) path) ∧
    (NulFree v → (∃ e, Walks v (startNode root pwd path) (pathList path) e ∧
        (isDirPath path = true → (v.node e).type = .directory)) →
      FollowsWalk v p fuel (startNode root pwd path) path →
      DotsAtRoot v root (startNode root pwd path) path) := by
  refine ⟨h.followsWalk hacc hne, ?_⟩
  rintro hfree ⟨e, hwalk, hisDir⟩ hfollow
  exact h.dotsAtRoot_of_followsWalk hfree hacc hne hwalk hisDir hfollow

end

/-- The file `/a/b`. -/
def dotVfs : Vfs where
  node n := [
    { name := [], type := .directory, children := [1] },
    { name := ['a'], type := .directory, parent := some 0, children := [2] },
    { name := ['b'], type := .file, parent := some 1 }].getD n { name := [], type := .unknown }
  root := 0
  depth n := n
  depth_parent n p h := by grind

/-- A process of the super user at the root of the tree. -/
def rootProcess : ProcessData := ⟨0, 0, .node 0, .node 0⟩

theorem dotVfs_isTree : IsTree dotVfs :=
  isTree_of_nodes [0, 1, 2] (by decide) (by decide) (by decide) rfl rfl rfl

theorem dotVfs_fullAccess : FullAccess dotVfs rootProcess 0 0 :=
  ⟨rfl, rfl, .root, .root, rfl, rfl, fun _ _ => rfl⟩

/-- Nothing is called `x` at the root of this tree. -/
theorem dotVfs_no_x (m : Nat) : ¬ Next dotVfs 0 ['x'] m := by
  intro hm
  rcases dotVfs_isTree.next_cases .root hm with ⟨-, hc, hname⟩ | ⟨hd, -⟩ | ⟨hd, -⟩
  · obtain rfl : m = 1 := List.mem_singleton.mp hc
    exact absurd hname (by decide)
  · exact absurd hd (by decide)
  · exact absurd hd (by decide)

/-- The path `/a/b` has no entry to resolve and is followed, and so is `/x/./b`, where the walk does
not get to the entry. -/
theorem user_find_follows_names : FollowsWalk dotVfs rootProcess 0 0 ['/', 'a', '/', 'b'] ∧
    FollowsWalk dotVfs rootProcess 0 0 ['/', 'x', '/', '.', '/', 'b'] := by
  have hname : ∀ d ∈ [['a']], IsName d := by decide
  have hne : ['/', 'a', '/', 'b'] ≠ [] := by decide
  have hne' : ['/', 'x', '/', '.', '/', 'b'] ≠ [] := by decide
  refine ⟨(user_find_follows_iff dotVfs_isTree dotVfs_fullAccess hne).1 ⟨?_, ?_⟩,
    (user_find_follows_iff dotVfs_isTree dotVfs_fullAccess hne').1 ⟨?_, ?_⟩⟩
  · intro ds m hds _
    exact ⟨0, ds, rfl, fun d hd => hname d (hds.subset hd), fun hk => absurd rfl hk⟩
  · intro e d _ hd hnot
    cases hd
    exact absurd (by decide) hnot
  · intro ds m hds hwalk
    refine ⟨0, ds, rfl, ?_, fun hk => absurd rfl hk⟩
    cases hwalk with
    | nil => simp
    | cons _ hm _ =>
      obtain ⟨rfl, -⟩ := List.cons_prefix_cons.mp hds
      exact absurd hm (dotVfs_no_x _)
  · intro e d hwalk
    cases hwalk with
    | cons _ hm _ => exact absurd hm (dotVfs_no_x _)

/-- In `/a/./b` the entry `.` is looked up as `//a//a/`, which is not there, so that the file is
not found by this path. -/
theorem dot_in_path_not_found : IsTree dotVfs ∧ FullAccess dotVfs rootProcess 0 0 ∧
      Walks dotVfs 0 (pathList ['/', 'a', '/', '.', '/', 'b']) 2 ∧
      ¬ FollowsWalk dotVfs rootProcess 0 0 ['/', 'a', '/', '.', '/', 'b'] := by
  have hwalk : Walks dotVfs 0 (pathList ['/', 'a', '/', '.', '/', 'b']) 2 := by
    exact .cons rfl (.child (by decide : 1 ∈ dotVfs.listing 0)) (.cons rfl .dot
      (.cons rfl (.child (by decide : 2 ∈ dotVfs.listing 1)) (.nil 2)))
  have hrun : dotVfs.userFind rootProcess 0 ['/', 'a', '/', '.', '/', 'b'] =
      .error (.errno .enoent) := by decide
  refine ⟨dotVfs_isTree, dotVfs_fullAccess, hwalk, fun hfollow => ?_⟩
  obtain ⟨l, hl⟩ := hfollow.succeeds.mpr ⟨2, hwalk, fun hisDir => absurd hisDir (by decide)⟩
  cases hl

end LudOS.Fs.Vfs
