import LudOS.Lib.Program
import LudOS.Fs.Vfs

/-!
# Path lookup for processes

The model of `user_find_impl` in `fs/fsutils.cpp` and of `Process::check_perms`. A lookup starts at
the root or the working directory of the process, takes one component after the other, and resolves
a link only when it has to look into it. A link is resolved by a lookup of its own, of the target
appended to the string `pwd` that the walk has put together so far.

The entries `.` and `..` are links with the full path of a directory as their target. Appended to
`pwd` that path names another place in general, so that the lookup continues elsewhere or fails.
-/

namespace LudOS.Fs

open Lib

/-! ## Permissions -/

/-- The error codes of the file system calls. -/
inductive Errno where
  | enoent
  | eio
  | e2big
  | eacces
  | efault
  | eexist
  | enotdir
  | eisdir
  | einval
  | enosys
  | eloop
  | enolink
  | ebadfd
  deriving DecidableEq, Repr

/-- The number of an error code. -/
def Errno.code : Errno → Int
  | .enoent => 2
  | .eio => 5
  | .e2big => 7
  | .eacces => 13
  | .efault => 14
  | .eexist => 17
  | .enotdir => 20
  | .eisdir => 21
  | .einval => 22
  | .enosys => 38
  | .eloop => 40
  | .enolink => 67
  | .ebadfd => 77

/-- The members of `ProcessData` that a lookup reads. -/
structure ProcessData where
  uid : UInt32
  gid : UInt32
  pwd : Handle
  root : Handle
  deriving DecidableEq, Repr

/-- `AccessRequestPerm::ReadRequest`. -/
def readRequest : UInt16 := 0

/-- `AccessRequestPerm::WriteRequest`. -/
def writeRequest : UInt16 := 1

/-- `AccessRequestPerm::ExecRequest`. -/
def execRequest : UInt16 := 2

/-- `Process::root_uid`. -/
def rootUid : UInt32 := 0

/-- The bit of `vfs::Permissions` that a request is checked against. -/
def requestFlag (type read write exec : UInt16) : UInt16 :=
  if type = readRequest then read else if type = writeRequest then write else exec

/-- `Process::check_perms`. -/
def ProcessData.checkPerms (p : ProcessData) (perms tgtUid tgtGid type : UInt16) : Bool :=
  let userFlag := requestFlag type 0x0100 0x0080 0x0040
  let groupFlag := requestFlag type 0x0020 0x0010 0x0008
  let otherFlag := requestFlag type 0x0004 0x0002 0x0001
  if p.uid = rootUid then true
  else decide ((tgtUid.toUInt32 = p.uid ∧ perms &&& userFlag ≠ 0) ∨
    (tgtGid.toUInt32 = p.gid ∧ perms &&& groupFlag ≠ 0) ∨ perms &&& otherFlag ≠ 0)

/-- The call of `check_perms` for a node; its parameters cut the ids to 16 bits. -/
def ProcessData.mayAccess (p : ProcessData) (stat : Stat) (type : UInt16) : Bool :=
  p.checkPerms stat.perms stat.uid.toUInt16 stat.gid.toUInt16 type

/-! ## Lookup -/

/-- Why a lookup has no node to return. -/
inductive LookupError where
  | errno (error : Errno)
  | crash
  deriving DecidableEq, Repr

/-- `max_symlink_loop`. -/
def maxSymlinkLoop : Nat := 40

namespace Vfs

variable (v : Vfs) (p : ProcessData) (fuel : Nat)

/-- `resolve_symlink_lambd`, with `left` rounds to go before it gives up. -/
def resolveSymlink (lookup : Str → Except LookupError Handle) (pwd : Str) :
    (left : Nat) → Handle → Except LookupError Nat
  | 0, cur =>
    match v.kind cur with
    | .plain n => .ok n
    | .link _ => .error (.errno .eloop)
  | left + 1, cur =>
    match v.kind cur with
    | .plain n => .ok n
    | .link target => do
      let cur ← lookup (concat pwd target)
      resolveSymlink lookup pwd left cur

/-- The checks on a directory and the search for a component among its children. -/
def searchChild (dir : Nat) (d : Str) : Except LookupError Handle :=
  if (v.node dir).type ≠ .directory then .error (.errno .enotdir)
  else if p.mayAccess (v.node dir).stat (readRequest ||| execRequest) = false then
    .error (.errno .eacces)
  else
    match v.readdir fuel (.node dir) with
    | none => .error .crash
    | some list =>
      match list.find? fun child => v.name child = d with
      | none => .error (.errno .enoent)
      | some child => .ok child

/-- One round of the loop of `user_find_impl`, on `cur_node` and `pwd`. -/
def userStep (lookup : Str → Except LookupError Handle) (s : Handle × Str) (d : Str) :
    Except LookupError (Handle × Str) := do
  let dir ← v.resolveSymlink lookup s.2 maxSymlinkLoop s.1
  let child ← v.searchChild p fuel dir d
  pure (child, appendStr s.2 (concat (v.node dir).name ['/']))

/-- Where the lookup of a path starts. -/
def startOf (p : ProcessData) (path : Str) : Handle :=
  if path.head? ≠ some '/' then p.pwd else p.root

/-- The loop of `user_find_impl` over the components `ds`. -/
def userWalk (lookup : Str → Except LookupError Handle) (start : Handle) (ds : List Str) :
    Except LookupError (Handle × Str) :=
  match v.path fuel start with
  | none => .error .crash
  | some pwd => ds.foldlM (v.userStep p fuel lookup) (start, pwd)

/-- The end of `user_find_impl`: a path with a slash at the end has to name a directory. -/
def userEnd (lookup : Str → Except LookupError Handle) (isDir : Bool) (s : Handle × Str) :
    Except LookupError Handle :=
  if isDir then do
    let dir ← v.resolveSymlink lookup (parentPath s.2) maxSymlinkLoop s.1
    if (v.node dir).type ≠ .directory then .error (.errno .enotdir) else pure (.node dir)
  else pure s.1

/-- The path ends with a slash. -/
def isDirPath (path : Str) : Bool := path.getLast? = some '/'

/-- `user_find_impl`, with `left` levels to go before it gives up. -/
def userFindImpl : (left : Nat) → Str → Except LookupError Handle
  | 0, _ => .error (.errno .eloop)
  | left + 1, path =>
    if path = [] then .error (.errno .enoent)
    else do
      let s ← v.userWalk p fuel (userFindImpl left) (startOf p path) (pathList path)
      v.userEnd (userFindImpl left) (isDirPath path) s

/-- `user_find`. -/
def userFind (path : Str) : Except LookupError Handle :=
  v.userFindImpl p fuel maxSymlinkLoop path

/-! ## The walk that a path describes -/

variable {v p fuel}

/-- A component that is neither `.` nor `..`. -/
def IsName (d : Str) : Prop := d ≠ dot ∧ d ≠ dotDot

instance (d : Str) : Decidable (IsName d) := inferInstanceAs (Decidable (_ ∧ _))

/-- Where a component leads: to a child by its name, nowhere else by `.`, and by `..` to the node
that shows this one. -/
inductive Next (v : Vfs) (n : Nat) : Str → Nat → Prop where
  | child {c : Nat} : c ∈ v.listing n → Next v n (v.node c).name c
  | dot : Next v n dot n
  | dotDot {q : Nat} : Shown v v.root q → n ∈ v.listing q → Next v n dotDot q

/-- The walk along the components `ds`; it only leaves directories. -/
inductive Walks (v : Vfs) : Nat → List Str → Nat → Prop where
  | nil (n : Nat) : Walks v n [] n
  | cons {n m e : Nat} {d : Str} {ds : List Str} : (v.node n).type = .directory → Next v n d m →
      Walks v m ds e → Walks v n (d :: ds) e

theorem Walks.append {n m e : Nat} {ds es : List Str} (h : Walks v n ds m) (h' : Walks v m es e) :
    Walks v n (ds ++ es) e := by
  induction h with
  | nil => exact h'
  | cons hdir hnext _ ih => exact .cons hdir hnext (ih h')

theorem Walks.split {n e : Nat} {ds es : List Str} (h : Walks v n (ds ++ es) e) :
    ∃ m, Walks v n ds m ∧ Walks v m es e := by
  induction ds generalizing n with
  | nil => exact ⟨n, .nil n, h⟩
  | cons d ds ih =>
    cases h with
    | cons hdir hnext hrest =>
      obtain ⟨m, hfirst, hlast⟩ := ih hrest
      exact ⟨m, .cons hdir hnext hfirst, hlast⟩

section

variable {n m e : Nat} {d : Str} {ds : List Str} {l : Handle}

/-- Two nodes of the tree whose names are legible do not stand in one place. -/
theorem IsTree.position_inj (h : IsTree v) (hn : Legible v n) (hm : Legible v m)
    (hsame : v.position n = v.position m) : n = m := by
  have hfirst := h.descend_position hn 0
  rw [hsame, h.descend_position hm 0] at hfirst
  cases hfirst
  rfl

theorem Next.shown (h : Next v n d m) (hn : Shown v v.root n) : Shown v v.root m := by
  cases h with
  | child hc => exact .child hn hc
  | dot => exact hn
  | dotDot hq _ => exact hq

theorem Walks.shown (h : Walks v n ds e) (hn : Shown v v.root n) : Shown v v.root e := by
  induction h with
  | nil => exact hn
  | cons _ hnext _ ih => exact ih (hnext.shown hn)

namespace IsTree

variable (h : IsTree v)

include h

theorem isName_child (hn : Shown v v.root n) {c : Nat}
    (hc : c ∈ v.listing n) : IsName (v.node c).name :=
  ⟨(h.validName n c hn hc).not_dot, (h.validName n c hn hc).not_dotDot⟩

/-- The cases of a step, told apart by the component. -/
theorem next_cases (hn : Shown v v.root n) (hm : Next v n d m) :
    (IsName d ∧ m ∈ v.listing n ∧ (v.node m).name = d) ∨ (d = dot ∧ m = n) ∨
      (d = dotDot ∧ Shown v v.root m ∧ n ∈ v.listing m) := by
  cases hm with
  | child hc => exact .inl ⟨h.isName_child hn hc, hc, rfl⟩
  | dot => exact .inr (.inl ⟨rfl, rfl⟩)
  | dotDot hq hn' => exact .inr (.inr ⟨rfl, hq, hn'⟩)

/-- A mounted root is not shown. -/
theorem mounted_not_shown (hn : Shown v v.root n) (hm : (v.node n).mounted = some m) :
    ¬ Shown v v.root m := by
  have hmounted := h.mounted n m hn hm
  intro hshown
  cases hshown with
  | root =>
    have hparent := hmounted.parent
    rw [h.root_parent] at hparent
    cases hparent
  | @child q _ hq hc => exact (h.validName q m hq hc).nonempty hmounted.name

/-- The node that lists the children belongs to one node of the tree. -/
theorem host_inj {q q' : Nat} (hq : Shown v v.root q) (hq' : Shown v v.root q')
    (heq : v.host q = v.host q') : q = q' := by
  unfold host at heq
  cases hm : (v.node q).mounted with
  | none =>
    cases hm' : (v.node q').mounted with
    | none =>
      rw [hm, hm'] at heq
      exact heq
    | some m' =>
      rw [hm, hm'] at heq
      cases heq
      exact absurd hq (h.mounted_not_shown hq' hm')
  | some m =>
    cases hm' : (v.node q').mounted with
    | none =>
      rw [hm, hm'] at heq
      cases heq
      exact absurd hq' (h.mounted_not_shown hq hm)
    | some m' =>
      rw [hm, hm'] at heq
      cases heq
      have hparent := (h.mounted q m hq hm).parent
      rw [(h.mounted q' m hq' hm').parent] at hparent
      exact (Option.some.inj hparent).symm

/-- A node is shown by one node only. -/
theorem shower_unique {q q' : Nat} (hq : Shown v v.root q)
    (hq' : Shown v v.root q') (hn : n ∈ v.listing q) (hn' : n ∈ v.listing q') : q = q' := by
  have hparent := h.parent q n hq hn
  rw [h.parent q' n hq' hn'] at hparent
  exact h.host_inj hq hq' (Option.some.inj hparent).symm

/-- The node that shows a legible one is legible. -/
theorem legible_shower (hn : Legible v n) {q : Nat} (hq : Shown v v.root q)
    (hmem : n ∈ v.listing q) : Legible v q := by
  cases hn with
  | root =>
    have hparent := h.parent q v.root hq hmem
    rw [h.root_parent] at hparent
    cases hparent
  | @child q' _ hq' hmem' _ =>
    rw [h.shower_unique hq hq'.shown hmem hmem']
    exact hq'

/-- A component leads to one node only. -/
theorem next_unique (hn : Shown v v.root n) {m' : Nat} (hm : Next v n d m)
    (hm' : Next v n d m') : m = m' := by
  rcases h.next_cases hn hm with ⟨hname, hc, hd⟩ | ⟨rfl, rfl⟩ | ⟨rfl, hq, hmem⟩
  · rcases h.next_cases hn hm' with ⟨-, hc', hd'⟩ | ⟨rfl, -⟩ | ⟨rfl, -⟩
    · exact h.distinct n m m' hn hc hc' (hd.trans hd'.symm)
    · exact absurd rfl hname.1
    · exact absurd rfl hname.2
  · rcases h.next_cases hn hm' with ⟨hname, -⟩ | ⟨-, rfl⟩ | ⟨hd, -⟩
    · exact absurd rfl hname.1
    · rfl
    · cases hd
  · rcases h.next_cases hn hm' with ⟨hname, -⟩ | ⟨hd, -⟩ | ⟨-, hq', hmem'⟩
    · exact absurd rfl hname.2
    · cases hd
    · exact h.shower_unique hq hq' hmem hmem'

theorem walks_unique (hn : Shown v v.root n) {e' : Nat} (hwalk : Walks v n ds e)
    (hwalk' : Walks v n ds e') : e = e' := by
  induction hwalk with
  | nil =>
    cases hwalk'
    rfl
  | cons _ hnext _ ih =>
    cases hwalk' with
    | cons _ hnext' hrest' =>
      cases h.next_unique hn hnext hnext'
      exact ih (hnext.shown hn) hrest'

end IsTree

/-! ## Entries -/

variable (v) in
/-- The entry of a directory behind a component that leads to `m`. -/
def entry (n : Nat) (d : Str) (m : Nat) : Handle :=
  if d = dot then .link (.node n) (v.pathOf n) dot
  else if d = dotDot then .link (.node n) (v.pathOf (v.host m)) dotDot
  else .node m

theorem find?_isName (hd : IsName d)
    (hl : (v.readdirOf n).find? (fun child => v.name child = d) = some l) :
    ∃ c ∈ v.listing n, (v.node c).name = d ∧ l = .node c := by
  have hname : v.name l = d := by simpa using List.find?_some hl
  have hmem := List.mem_of_find?_eq_some hl
  rcases List.mem_append.mp hmem with hmem | hmem
  · obtain ⟨c, hc, rfl⟩ := List.mem_map.mp hmem
    exact ⟨c, hc, hname, rfl⟩
  · rcases mem_dotLinks.mp hmem with rfl | ⟨q, -, rfl⟩
    · exact absurd hname.symm hd.1
    · exact absurd hname.symm hd.2

/-- No child has the name of one of the two links. -/
theorem IsTree.find?_dotLinks (h : IsTree v) (hn : Shown v v.root n) (hd : ¬ IsName d) :
    (v.readdirOf n).find? (fun child => v.name child = d) =
      (v.dotLinks n).find? fun child => v.name child = d := by
  have hnone : ((v.listing n).map Handle.node).find? (fun child => v.name child = d) = none := by
    refine List.find?_eq_none.mpr fun l hl hname => ?_
    obtain ⟨c, hc, rfl⟩ := List.mem_map.mp hl
    exact hd (of_decide_eq_true hname ▸ h.isName_child hn hc)
  rw [readdirOf, List.find?_append, hnone, Option.none_or]

/-- A node other than the root is shown by a node. -/
theorem IsTree.exists_shower (h : IsTree v) (hn : Shown v v.root n) {q : Nat}
    (hq : (v.node n).parent = some q) : ∃ m, Shown v v.root m ∧ n ∈ v.listing m ∧ q = v.host m := by
  cases hn with
  | root =>
    rw [h.root_parent] at hq
    cases hq
  | @child m _ hm hn =>
    rw [h.parent m n hm hn] at hq
    cases hq
    exact ⟨m, hm, hn, rfl⟩

theorem find?_dot : (v.dotLinks n).find? (fun child => v.name child = dot) =
    some (.link (.node n) (v.pathOf n) dot) := by
  simp [dotLinks, name]

theorem find?_dotDot : (v.dotLinks n).find? (fun child => v.name child = dotDot) =
    (v.node n).parent.map fun q => .link (.node n) (v.pathOf q) dotDot := by
  have hne : dot ≠ dotDot := by decide
  cases hq : (v.node n).parent with
  | none => simp [dotLinks, name, hne, hq]
  | some q => simp [dotLinks, name, hne, hq]

/-- The directory has an entry for a component exactly when the component leads somewhere. -/
theorem IsTree.find?_eq_some (h : IsTree v) (hn : Shown v v.root n) :
    (v.readdirOf n).find? (fun child => v.name child = d) = some l ↔
      ∃ m, Next v n d m ∧ l = v.entry n d m := by
  by_cases hd : IsName d
  · constructor
    · intro hl
      obtain ⟨c, hc, rfl, rfl⟩ := find?_isName hd hl
      exact ⟨c, .child hc, by rw [entry, if_neg hd.1, if_neg hd.2]⟩
    · rintro ⟨m, hm, rfl⟩
      rcases h.next_cases hn hm with ⟨-, hc, rfl⟩ | ⟨rfl, -⟩ | ⟨rfl, -⟩
      · rw [h.find?_child hn hc, entry, if_neg hd.1, if_neg hd.2]
      · exact absurd rfl hd.1
      · exact absurd rfl hd.2
  · rw [h.find?_dotLinks hn hd]
    have hcases : d = dot ∨ d = dotDot := by
      by_contra hne
      exact hd (not_or.mp hne)
    rcases hcases with rfl | rfl
    · rw [find?_dot, Option.some.injEq]
      constructor
      · rintro rfl
        exact ⟨n, .dot, rfl⟩
      · rintro ⟨m, -, rfl⟩
        rfl
    · rw [find?_dotDot, Option.map_eq_some_iff]
      constructor
      · rintro ⟨q, hq, rfl⟩
        obtain ⟨m, hm, hmem, rfl⟩ := h.exists_shower hn hq
        exact ⟨m, .dotDot hm hmem, rfl⟩
      · rintro ⟨m, hm, rfl⟩
        rcases h.next_cases hn hm with ⟨hname, -⟩ | ⟨hdot, -⟩ | ⟨-, hq, hmem⟩
        · exact absurd hname hd
        · cases hdot
        · exact ⟨v.host m, h.parent m n hq hmem, rfl⟩

theorem IsTree.searchChild_eq_ok (h : IsTree v) (hn : Shown v v.root n) :
    v.searchChild p fuel n d = .ok l ↔ (v.node n).type = .directory ∧
      p.mayAccess (v.node n).stat (readRequest ||| execRequest) = true ∧
      ∃ m, Next v n d m ∧ l = v.entry n d m := by
  unfold searchChild readdir
  rw [h.readdirWith_eq hn, ← h.find?_eq_some hn]
  split
  case isTrue hdir => simp [hdir]
  case isFalse hdir =>
    rw [Decidable.not_not] at hdir
    split
    case isTrue hperm => simp [hperm]
    case isFalse hperm =>
      dsimp only
      cases (v.readdirOf n).find? fun child => v.name child = d with
      | none => simp
      | some child => simp [hdir, hperm]

end

/-! ## Strings of a walk -/

/-- A string without zero characters that starts and ends with a slash. -/
structure Framed (s : Str) : Prop where
  head : s.head? = some '/'
  last : ∃ x, s = x ++ ['/']
  no_nul : nul ∉ s

/-- What a round appends to `pwd`. -/
theorem appendStr_concat (s name : Str) :
    appendStr s (concat name ['/']) = s ++ cStr name ++ ['/'] := by
  rw [appendStr, cStr_eq_self (nul_not_mem_concat _ _), concat_eq, List.append_assoc]
  rfl

section

variable {s t : Str}

namespace Framed

variable (h : Framed s)

include h

theorem ne_nil : s ≠ [] := by
  rintro rfl
  cases h.head

theorem append (h' : Framed t) : Framed (s ++ t) := by
  refine ⟨?_, ?_, nul_not_mem_append h.no_nul h'.no_nul⟩
  · rw [List.head?_append, h.head]
    rfl
  · obtain ⟨x, rfl⟩ := h'.last
    exact ⟨s ++ x, by rw [List.append_assoc]⟩

theorem concat_eq (h' : Framed t) : concat s t = s ++ t := concat_of_not_mem h.no_nul h'.no_nul

theorem snoc (name : Str) : Framed (s ++ cStr name ++ ['/']) := by
  refine ⟨?_, ⟨s ++ cStr name, rfl⟩, ?_⟩
  · rw [List.append_assoc, List.head?_append, h.head]
    rfl
  · exact nul_not_mem_append (nul_not_mem_append h.no_nul (nul_not_mem_cStr name)) (by decide)

/-- What stands behind a slash does not touch the components before it. -/
theorem pathList_append (t : Str) : pathList (s ++ t) = pathList s ++ pathList t := by
  obtain ⟨x, rfl⟩ := h.last
  rw [List.append_assoc, List.singleton_append, Fs.pathList_append, pathList_snoc]

/-- The parent path drops the name that was appended last. -/
theorem pathList_parentPath {name : Str} (hname : '/' ∉ name) :
    pathList (parentPath (s ++ cStr name ++ ['/'])) = pathList s := by
  have hnul := (h.snoc name).no_nul
  have hslash : '/' ∉ cStr name := fun hmem => hname (mem_of_mem_cStr hmem)
  obtain ⟨x, rfl⟩ := h.last
  have hpieces : pieces ['/'].contains (x ++ ['/'] ++ cStr name ++ ['/']) =
      pieces ['/'].contains (x ++ ['/']) ++ [cStr name] := by
    rw [List.append_assoc, List.append_assoc, List.singleton_append, pieces_append rfl,
      pieces_closed (not_slash hslash) rfl]
  rw [Fs.pathList_parentPath hnul, hpieces, List.dropLast_concat]
  rfl

theorem isDirPath : isDirPath s = true := by
  obtain ⟨x, rfl⟩ := h.last
  simp [Vfs.isDirPath]

end Framed

end

section

variable {n m e r : Nat} {d : Str} {ds : List Str} {lookup : Str → Except LookupError Handle}

namespace IsTree

variable (h : IsTree v) (hn : Shown v v.root n)

include h hn

theorem head_pathOf_host
    (hhead : (v.pathOf n).head? = some '/') : (v.pathOf (v.host n)).head? = some '/' := by
  unfold host
  cases hm : (v.node n).mounted with
  | none => exact hhead
  | some m =>
    have hmounted := h.mounted n m hn hm
    rw [Option.getD_some, pathOf_directory hmounted.directory, stem_eq hmounted.parent]
    rw [List.append_assoc, List.head?_append, hhead]
    rfl

theorem head_pathOf : (v.pathOf n).head? = some '/' := by
  induction hn with
  | root =>
    rw [pathOf_directory h.root_directory, stem, h.root_parent]
    rfl
  | @child q c hq hc ih =>
    rw [pathOf_eq, stem_eq (h.parent q c hq hc)]
    rw [List.append_assoc, List.head?_append, h.head_pathOf_host hq ih]
    rfl

theorem framed_pathOf
    (hdir : (v.node n).type = .directory) : Framed (v.pathOf n) ∧ Framed (v.pathOf (v.host n)) := by
  have hhost := (h.host_eq hn).2.2 hdir
  exact ⟨⟨h.head_pathOf hn, ⟨_, pathOf_directory hdir⟩, nul_not_mem_pathOf n⟩,
    ⟨h.head_pathOf_host hn (h.head_pathOf hn), ⟨_, pathOf_directory hhost⟩, nul_not_mem_pathOf _⟩⟩

/-- What an entry is: a node, or a link whose target is the place that the component leads to. -/
theorem entry_kind (hdir : (v.node n).type = .directory) (hm : Next v n d m) :
    (IsName d ∧ v.entry n d m = .node m) ∨
      ∃ target, v.kind (v.entry n d m) = .link target ∧ Framed target ∧
        pathList target = v.position m := by
  rcases h.next_cases hn hm with ⟨hd, -, -⟩ | ⟨rfl, rfl⟩ | ⟨rfl, hq, hmem⟩
  · exact .inl ⟨hd, by rw [entry, if_neg hd.1, if_neg hd.2]⟩
  · exact .inr ⟨v.pathOf m, rfl, (h.framed_pathOf hn hdir).1, rfl⟩
  · exact .inr ⟨v.pathOf (v.host m), rfl, (h.framed_pathOf hq (h.directory m n hq hmem)).2,
      (h.host_eq hq).2.1⟩

end IsTree

theorem IsTree.isName_of_mem_position (h : IsTree v) (hn : Legible v n) (hd : d ∈ v.position n) :
    IsName d := by
  induction hn with
  | root =>
    rw [h.position_root] at hd
    cases hd
  | @child q c hq hc hnul ih =>
    rw [h.position_child hq.shown hc hnul, List.mem_append, List.mem_singleton] at hd
    rcases hd with hd | rfl
    · exact ih hd
    · exact h.isName_child hq.shown hc

/-! ## Lookups without links -/

theorem resolveSymlink_plain {lookup : Str → Except LookupError Handle} {cur : Handle}
    (hkind : v.kind cur = .plain n) (pwd : Str) (left : Nat) :
    v.resolveSymlink lookup pwd left cur = .ok n := by
  cases left <;> simp [resolveSymlink, hkind]

theorem resolveSymlink_link {cur : Handle}
    {target : Str} (hkind : v.kind cur = .link target) (pwd : Str) (left : Nat) :
    v.resolveSymlink lookup pwd (left + 1) cur =
      lookup (concat pwd target) >>= v.resolveSymlink lookup pwd left := by
  simp [resolveSymlink, hkind]

theorem Shown.trans {q : Nat} (h : Shown v r n) (h' : Shown v q r) : Shown v q n := by
  induction h with
  | root => exact h'
  | child _ hc ih => exact .child ih hc

/-- A round that succeeds. -/
theorem IsTree.userStep_eq_ok (h : IsTree v) (s : Handle × Str) {s' : Handle × Str}
    (hresolve : v.resolveSymlink lookup s.2 maxSymlinkLoop s.1 = .ok n)
    (hn : Shown v v.root n) : v.userStep p fuel lookup s d = .ok s' ↔ (v.node n).type = .directory ∧
      p.mayAccess (v.node n).stat (readRequest ||| execRequest) = true ∧
      ∃ m, Next v n d m ∧ s' = (v.entry n d m, s.2 ++ cStr (v.node n).name ++ ['/']) := by
  have hstep : v.userStep p fuel lookup s d = (v.searchChild p fuel n d >>= fun child =>
      pure (child, s.2 ++ cStr (v.node n).name ++ ['/'])) := by
    rw [userStep, hresolve, ← appendStr_concat]
    rfl
  rw [hstep, except_bind_eq_ok]
  constructor
  · rintro ⟨child, hchild, hs'⟩
    obtain ⟨hdir, hperm, m, hm, rfl⟩ := (h.searchChild_eq_ok hn).mp hchild
    cases hs'
    exact ⟨hdir, hperm, m, hm, rfl⟩
  · rintro ⟨hdir, hperm, m, hm, rfl⟩
    exact ⟨_, (h.searchChild_eq_ok hn).mpr ⟨hdir, hperm, m, hm, rfl⟩, rfl⟩

/-- A walk along names ends below its start, where the names say. -/
theorem IsTree.foldlM_names (h : IsTree v) (hr : Shown v v.root r)
    (hds : ∀ d ∈ ds, IsName d ∧ nul ∉ d) (hn : Shown v r n) {pwd : Str}
    {s : Handle × Str} (hrun : ds.foldlM (v.userStep p fuel lookup) (.node n, pwd) = .ok s) :
    ∃ e, s.1 = .node e ∧ Shown v r e ∧ v.position e = v.position n ++ ds := by
  induction ds generalizing n pwd with
  | nil =>
    cases hrun
    exact ⟨n, rfl, hn, by rw [List.append_nil]⟩
  | cons d ds ih =>
    have hshown := hn.trans hr
    obtain ⟨s', hstep, hrest⟩ := except_bind_eq_ok.mp hrun
    have hresolve := @resolveSymlink_plain v n lookup (.node n) (kind_node (h.plain n hshown))
      pwd maxSymlinkLoop
    obtain ⟨-, -, m, hm, rfl⟩ := (h.userStep_eq_ok _ hresolve hshown).mp hstep
    obtain ⟨hd, hnul⟩ := hds d List.mem_cons_self
    rcases h.next_cases hshown hm with ⟨-, hc, rfl⟩ | ⟨rfl, -⟩ | ⟨rfl, -⟩
    · rw [entry, if_neg hd.1, if_neg hd.2] at hrest
      obtain ⟨e, he, hshown', hposition⟩ :=
        ih (fun d' hd' => hds d' (List.mem_cons_of_mem _ hd')) (.child hn hc) hrest
      refine ⟨e, he, hshown', ?_⟩
      rw [hposition, h.position_child hshown hc hnul, List.append_assoc, List.singleton_append]
    · exact absurd rfl hd.1
    · exact absurd rfl hd.2

/-- A lookup from the root of the process along names ends below that root. -/
theorem IsTree.userFindImpl_names (h : IsTree v) {left : Nat} (hroot : p.root = .node r)
    (hr : Shown v v.root r) {path : Str} (hhead : path.head? = some '/') (hnul : nul ∉ path)
    (hnames : ∀ d ∈ pathList path, IsName d) {l : Handle}
    (hrun : v.userFindImpl p fuel left path = .ok l) :
    ∃ e, l = .node e ∧ Shown v r e ∧ v.position e = v.position r ++ pathList path := by
  cases left with
  | zero => cases hrun
  | succ left =>
    have hne : path ≠ [] := by
      rintro rfl
      cases hhead
    have hstart : startOf p path = .node r := by simp [startOf, hhead, hroot]
    rw [userFindImpl, if_neg hne, hstart] at hrun
    obtain ⟨s, hwalk, hend⟩ := except_bind_eq_ok.mp hrun
    rw [userWalk, path_node (h.plain r hr)] at hwalk
    have hlegible : ∀ d ∈ pathList path, IsName d ∧ nul ∉ d := fun d hd =>
      ⟨hnames d hd, nul_not_mem_piece hnul (List.mem_filter.mp hd).1⟩
    obtain ⟨e, he, hshown, hposition⟩ := h.foldlM_names hr hlegible .root hwalk
    refine ⟨e, ?_, hshown, hposition⟩
    have hplain := kind_node (h.plain e (hshown.trans hr))
    unfold userEnd at hend
    rw [he] at hend
    split at hend
    case isTrue =>
      rw [resolveSymlink_plain hplain] at hend
      obtain ⟨dir, hdir, hend⟩ := except_bind_eq_ok.mp hend
      cases hdir
      split at hend
      · cases hend
      · cases hend
        rfl
    case isFalse =>
      cases hend
      rfl

/-- A link that is resolved leads below the root of the process, along `pwd` and the target. -/
theorem IsTree.resolveSymlink_names (h : IsTree v) {r left : Nat} (hroot : p.root = .node r)
    (hr : Shown v v.root r) {pwd target : Str} (hpwd : Framed pwd) (htarget : Framed target)
    (hnames : ∀ d ∈ pathList pwd ++ pathList target, IsName d) {cur : Handle}
    (hkind : v.kind cur = .link target) {rounds : Nat}
    (hrun : v.resolveSymlink (v.userFindImpl p fuel left) pwd (rounds + 1) cur = .ok n) :
    Shown v r n ∧ v.position n = v.position r ++ (pathList pwd ++ pathList target) := by
  have hwhole := hpwd.append htarget
  rw [resolveSymlink_link hkind, hpwd.concat_eq htarget] at hrun
  obtain ⟨l, hlookup, hrest⟩ := except_bind_eq_ok.mp hrun
  rw [← hpwd.pathList_append] at hnames ⊢
  obtain ⟨e, rfl, hshown, hposition⟩ :=
    h.userFindImpl_names hroot hr hwhole.head hwhole.no_nul hnames hlookup
  rw [resolveSymlink_plain (kind_node (h.plain e (hshown.trans hr)))] at hrest
  cases hrest
  exact ⟨hshown, hposition⟩

end

end Vfs

end LudOS.Fs
