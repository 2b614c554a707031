import Mathlib.Data.List.TakeWhile
import LudOS.Lib.Tokens

/-!
# The tree of nodes

The model of `fs/vfs.hpp`, `fs/vfs.cpp`, `fs/pathutils.hpp` and of `find` in
`fs/fsutils.cpp`. A node is known by a number. What a node lists, its parent and the file system
mounted on it are given by the tree; the entries `.` and `..` are link objects that every `readdir`
creates anew, so that a handle is a node or such a link.

The methods of a link act on the node its target is found to be, which may be a link again.
`actsOn` follows such a chain as far as its bound allows, and the other functions take that as an
argument. The source has no bound: a chain without end overflows the stack.

Strings are appended as C strings, up to the first zero character, while names are compared as a
whole. Every path that `path` builds from names without that character leads `find` back to the
node, also below a mounted root, whose empty name leaves two slashes in a row.
-/

namespace LudOS.Fs

open Lib

/-! ## Strings -/

/-- `kpp::string`. -/
abbrev Str := List Char

/-- The character that ends a C string. -/
def nul : Char := Char.ofNat 0

/-- The characters of `c_str` up to the end of the C string. -/
def cStr (s : Str) : Str := s.takeWhile (· ≠ nul)

/-- `kernel_string::append` and `operator+=`. The string that is appended is taken as a C string. -/
def appendStr (s t : Str) : Str := s ++ cStr t

/-- `operator+`. -/
def concat (s t : Str) : Str := appendStr (appendStr [] s) t

section

variable {s t : Str}

theorem nul_not_mem_cStr (s : Str) : nul ∉ cStr s := by
  intro hmem
  have hne := List.mem_takeWhile_imp hmem
  simp at hne

/-- A string without zero characters is a C string. -/
theorem cStr_eq_self (h : nul ∉ s) : cStr s = s := by
  refine List.takeWhile_eq_self_iff.mpr fun c hc => ?_
  have hne : c ≠ nul := fun heq => h (heq ▸ hc)
  simpa using hne

theorem mem_of_mem_cStr {c : Char} (h : c ∈ cStr s) : c ∈ s := (List.takeWhile_sublist _).mem h

theorem concat_eq (s t : Str) : concat s t = cStr s ++ cStr t := rfl

theorem nul_not_mem_append (hs : nul ∉ s) (ht : nul ∉ t) : nul ∉ s ++ t := by
  simp [hs, ht]

theorem nul_not_mem_concat (s t : Str) : nul ∉ concat s t :=
  nul_not_mem_append (nul_not_mem_cStr s) (nul_not_mem_cStr t)

theorem concat_of_not_mem (hs : nul ∉ s) (ht : nul ∉ t) : concat s t = s ++ t := by
  rw [concat_eq, cStr_eq_self hs, cStr_eq_self ht]

end

/-! ## Paths -/

/-- `tokenize`. -/
def tokenize (str delimiters : Str) (trimEmpty : Bool) : List Str :=
  if trimEmpty then words delimiters.contains str else pieces delimiters.contains str

/-- `join`. -/
def join (cont : List Str) (joinStr : Str) : Str := (cStr joinStr).intercalate (cont.map cStr)

/-- `path_list`. -/
def pathList (path : Str) : List Str := tokenize path ['/'] true

/-- `filename`. A path without a token has no last one, and the source then reads outside. -/
def filename (path : Str) : Str := (tokenize path ['/'] false).getLastD []

/-- `parent_path`. -/
def parentPath (path : Str) : Str := concat (join (tokenize path ['/'] false).dropLast ['/']) ['/']

/-- The name `.`. -/
def dot : Str := ['.']

/-- The name `..`. -/
def dotDot : Str := ['.', '.']

/-- A name that a path can contain. -/
structure ValidName (name : Str) : Prop where
  nonempty : name ≠ []
  no_slash : '/' ∉ name
  not_dot : name ≠ dot
  not_dotDot : name ≠ dotDot

instance (name : Str) : Decidable (ValidName name) :=
  decidable_of_iff (name ≠ [] ∧ '/' ∉ name ∧ name ≠ dot ∧ name ≠ dotDot)
    ⟨fun h => ⟨h.1, h.2.1, h.2.2.1, h.2.2.2⟩, fun h => ⟨h.1, h.2, h.3, h.4⟩⟩

theorem pathList_append (s t : Str) : pathList (s ++ '/' :: t) = pathList s ++ pathList t :=
  words_append rfl s t

theorem pathList_snoc (s : Str) : pathList (s ++ ['/']) = pathList s := words_snoc rfl s

theorem not_slash {name : Str} (h : '/' ∉ name) : ∀ c ∈ name, ['/'].contains c = false := by
  intro c hc
  have hne : c ≠ '/' := fun heq => h (heq ▸ hc)
  simpa using hne

theorem pathList_name {name : Str} (h : '/' ∉ name) (hne : name ≠ []) : pathList name = [name] :=
  words_of_not_sep (not_slash h) hne

theorem map_cStr {ps : List Str} (h : ∀ p ∈ ps, nul ∉ p) : ps.map cStr = ps :=
  (List.map_congr_left fun p hp => cStr_eq_self (h p hp)).trans (List.map_id ps)

/-- Tokens have only characters of the string. -/
theorem nul_not_mem_piece {path piece : Str} (h : nul ∉ path)
    (hpiece : piece ∈ pieces ['/'].contains path) : nul ∉ piece :=
  fun hmem => h (mem_of_mem_pieces hpiece hmem)

/-- `join` of tokens without zero characters. -/
theorem join_slash {ps : List Str} (h : ∀ p ∈ ps, nul ∉ p) :
    join ps ['/'] = ['/'].intercalate ps := by
  rw [join, map_cStr h]
  rfl

theorem nul_not_mem_join {ps : List Str} (h : ∀ p ∈ ps, nul ∉ p) : nul ∉ join ps ['/'] := by
  rw [join_slash h]
  intro hmem
  rcases mem_intercalate hmem with hslash | ⟨p, hp, hmem⟩
  · exact absurd (List.mem_singleton.mp hslash) (by decide)
  · exact h p hp hmem

/-- The parent path of a string without zero characters. -/
theorem parentPath_eq {path : Str} (h : nul ∉ path) :
    parentPath path = ['/'].intercalate (pieces ['/'].contains path).dropLast ++ ['/'] := by
  have hpieces : ∀ p ∈ (pieces ['/'].contains path).dropLast, nul ∉ p := fun p hp =>
    nul_not_mem_piece h (List.dropLast_subset _ hp)
  have hjoin := nul_not_mem_join hpieces
  rw [join_slash hpieces] at hjoin
  show concat (join (pieces ['/'].contains path).dropLast ['/']) ['/'] = _
  rw [join_slash hpieces, concat_of_not_mem hjoin (by decide)]

/-- The components of a parent path are those of the path without the last token. -/
theorem pathList_parentPath {path : Str} (h : nul ∉ path) : pathList (parentPath path) =
      (pieces ['/'].contains path).dropLast.filter (!·.isEmpty) := by
  rw [parentPath_eq h, pathList_snoc]
  refine words_intercalate rfl fun p hp => ?_
  exact not_sep_of_mem_pieces (List.dropLast_subset _ hp)

/-! ## Nodes -/

/-- `node::Type`. -/
inductive NodeType where
  | unknown
  | file
  | directory
  | symLink
  | fifo
  deriving DecidableEq, Repr

/-- `node::Stat`, as far as lookups read it. -/
structure Stat where
  perms : UInt16
  uid : UInt32
  gid : UInt32
  deriving DecidableEq, Repr

/-- `node::mkstat`. -/
def mkstat : Stat := ⟨0x0FFF, 0, 0⟩

/-- A node of the tree. `link` is the target of a `vfs::symlink`, `children` what `readdir_impl`
lists. -/
structure Node where
  name : Str
  type : NodeType
  stat : Stat := mkstat
  link : Option Str := none
  parent : Option Nat := none
  mounted : Option Nat := none
  children : List Nat := []
  deriving DecidableEq, Repr

/-- The nodes and `vfs::root`. Following parents ends, or `path` would not return. -/
structure Vfs where
  node : Nat → Node
  root : Nat
  depth : Nat → Nat
  depth_parent : ∀ n p, (node n).parent = some p → depth p < depth n

/-- A pointer to a node: one of the tree, or a link that `readdir` of `parent` has created. -/
inductive Handle where
  | node (n : Nat)
  | link (parent : Handle) (target name : Str)
  deriving DecidableEq, Repr

/-- What a handle points to. -/
inductive Kind where
  | plain (n : Nat)
  | link (target : Str)
  deriving DecidableEq, Repr

/-- The suffix that `path` gives to a node. -/
def suffix (type : NodeType) : Str := if type = .directory then ['/'] else []

namespace Vfs

variable (v : Vfs) {n : Nat}

/-- `is_link` and `target`. -/
def kind : Handle → Kind
  | .node n =>
    match (v.node n).link with
    | none => .plain n
    | some target => .link target
  | .link _ target _ => .link target

/-- `node::name`. -/
def name : Handle → Str
  | .node n => (v.node n).name
  | .link _ _ name => name

/-- `node::stat`. -/
def stat : Handle → Stat
  | .node n => (v.node n).stat
  | .link _ _ _ => mkstat

/-- `node::parent`. -/
def parentOf : Handle → Option Handle
  | .node n => (v.node n).parent.map .node
  | .link parent _ _ => some parent

/-- The recursion of `path` over nodes that are not links; `fuel` is the length of the chain. -/
def pathFrom : (fuel : Nat) → Nat → Str
  | 0, n => suffix (v.node n).type
  | fuel + 1, n =>
    match (v.node n).parent with
    | none => suffix (v.node n).type
    | some p => concat (concat (pathFrom fuel p) (v.node n).name) (suffix (v.node n).type)

/-- `node::path` of a node that is not a link. The parents of a node never are: the children that a
link lists are those of its target. -/
def pathOf (n : Nat) : Str := v.pathFrom (v.depth n) n

/-- The path of a node without its suffix. -/
def stem (n : Nat) : Str :=
  match (v.node n).parent with
  | none => []
  | some p => concat (v.pathOf p) (v.node n).name

/-- The node whose children a node lists: the root mounted on it, or itself. -/
def host (n : Nat) : Nat := (v.node n).mounted.getD n

/-- The children that a node shows. -/
def listing (n : Nat) : List Nat := (v.node (v.host n)).children

/-! ## Methods of handles

`acts` gives the node that the methods of a link finally act on, if that is a node. -/

section

variable (acts : Handle → Option Nat)

/-- `node::type`. -/
def typeWith (h : Handle) : Option NodeType := (acts h).map fun n => (v.node n).type

/-- `node::path`. -/
def pathWith : Handle → Option Str
  | .node n => (v.typeWith acts (.node n)).map fun type => concat (v.stem n) (suffix type)
  | .link parent target name => do
    let type ← v.typeWith acts (.link parent target name)
    let path ← pathWith parent
    pure (concat (concat path name) (suffix type))

/-- The entry `..` of `readdir`, for a node that has a parent. -/
def parentDir (h : Handle) : Option (List Handle) :=
  match v.parentOf h with
  | none => pure []
  | some parent => do
    let path ← v.pathWith acts parent
    pure [.link h path dotDot]

/-- `m_mounted_node`, or the node itself. -/
def hostOf : Handle → Handle
  | .node n => .node (v.host n)
  | .link parent target name => .link parent target name

/-- `node::readdir`. -/
def readdirWith (h : Handle) : Option (List Handle) := do
  let impl ← acts (v.hostOf h)
  let path ← v.pathWith acts h
  let parentDir ← v.parentDir acts h
  pure ((v.node impl).children.map .node ++ .link h path dot :: parentDir)

/-- Why `find` has no node to return: the path is empty, an entry is missing, or a method of a link
did not return. -/
inductive FindError where
  | null
  | notFound
  | crash
  deriving DecidableEq, Repr

/-- The loop of `find`. -/
def descend : Handle → List Str → Except FindError Handle
  | cur, [] => .ok cur
  | cur, d :: ds =>
    match v.readdirWith acts cur with
    | none => .error .crash
    | some list =>
      match list.find? fun child => v.name child = d with
      | none => .error .notFound
      | some child => descend child ds

/-- `find` from `vfs::root`. -/
def findWith (path : Str) : Except FindError Handle :=
  if path = [] then .error .null
  else if path = ['/'] then .ok (.node v.root)
  else v.descend acts (.node v.root) (pathList path)

end

/-- The node that the methods of a handle finally act on. `symlink::actual_target` finds the target
of a link; a target that is not found is a null pointer. -/
def actsOn : (fuel : Nat) → Handle → Option Nat
  | 0, h =>
    match v.kind h with
    | .plain n => some n
    | .link _ => none
  | fuel + 1, h =>
    match v.kind h with
    | .plain n => some n
    | .link target =>
      match v.findWith (actsOn fuel) target with
      | .ok h' => actsOn fuel h'
      | .error _ => none

/-- `find`. -/
def find (fuel : Nat) (path : Str) : Except FindError Handle := v.findWith (v.actsOn fuel) path

/-- `node::type`. -/
def typeOf (fuel : Nat) (h : Handle) : Option NodeType := v.typeWith (v.actsOn fuel) h

/-- `node::path`. -/
def path (fuel : Nat) (h : Handle) : Option Str := v.pathWith (v.actsOn fuel) h

/-- `node::readdir`. -/
def readdir (fuel : Nat) (h : Handle) : Option (List Handle) := v.readdirWith (v.actsOn fuel) h

/-! ## Nodes that are not links -/

variable {v}

/-- A longer bound does not change the path. -/
theorem pathFrom_of_le : ∀ {fuel : Nat}, v.depth n ≤ fuel → v.pathFrom fuel n = v.pathOf n := by
  unfold pathOf
  induction hd : v.depth n using Nat.strongRecOn generalizing n with
  | _ d ih =>
    intro fuel hle
    cases hparent : (v.node n).parent with
    | none => cases fuel <;> cases d <;> simp [pathFrom, hparent]
    | some p =>
      have hlt := v.depth_parent n p hparent
      obtain ⟨fuel, rfl⟩ : ∃ k, fuel = k + 1 := ⟨fuel - 1, by omega⟩
      obtain ⟨d, rfl⟩ : ∃ k, d = k + 1 := ⟨d - 1, by omega⟩
      have hleft : v.pathFrom fuel p = v.pathFrom (v.depth p) p :=
        ih (v.depth p) (by omega) rfl (by omega)
      have hright : v.pathFrom d p = v.pathFrom (v.depth p) p :=
        ih (v.depth p) (by omega) rfl (by omega)
      simp only [pathFrom, hparent, hleft, hright]

theorem nul_not_mem_suffix (type : NodeType) : nul ∉ suffix type := by
  cases type <;> decide

theorem nul_not_mem_stem (n : Nat) : nul ∉ v.stem n := by
  unfold stem
  cases (v.node n).parent with
  | none => exact List.not_mem_nil
  | some p => exact nul_not_mem_concat _ _

/-- The equation of `path`. -/
theorem pathOf_eq (n : Nat) : v.pathOf n = v.stem n ++ suffix (v.node n).type := by
  rw [← concat_of_not_mem (nul_not_mem_stem n) (nul_not_mem_suffix _)]
  unfold stem
  cases hparent : (v.node n).parent with
  | none =>
    have hsuffix : concat [] (suffix (v.node n).type) = suffix (v.node n).type :=
      concat_of_not_mem List.not_mem_nil (nul_not_mem_suffix _)
    unfold pathOf
    cases v.depth n <;> simp [pathFrom, hparent, hsuffix]
  | some p =>
    have hlt := v.depth_parent n p hparent
    obtain ⟨d, hd⟩ : ∃ k, v.depth n = k + 1 := ⟨v.depth n - 1, by omega⟩
    have hpath : v.pathFrom d p = v.pathOf p := pathFrom_of_le (by omega)
    simp only [pathOf, hd, pathFrom, hparent]
    rw [hpath]
    rfl

/-- No path has a zero character. -/
theorem nul_not_mem_pathOf (n : Nat) : nul ∉ v.pathOf n := by
  rw [pathOf_eq]
  exact nul_not_mem_append (nul_not_mem_stem n) (nul_not_mem_suffix _)

theorem stem_eq {p : Nat} (hparent : (v.node n).parent = some p) :
    v.stem n = v.pathOf p ++ cStr (v.node n).name := by
  rw [stem, hparent]
  show concat _ _ = _
  rw [concat_eq, cStr_eq_self (nul_not_mem_pathOf p)]

theorem actsOn_plain {h : Handle} (hkind : v.kind h = .plain n) (fuel : Nat) :
    v.actsOn fuel h = some n := by
  cases fuel <;> simp [actsOn, hkind]

section

variable (h : (v.node n).link = none)

include h

theorem kind_node : v.kind (.node n) = .plain n := by
  simp [kind, h]

theorem pathWith_node (fuel : Nat) : v.pathWith (v.actsOn fuel) (.node n) = some (v.pathOf n) := by
  simp only [pathWith, typeWith, actsOn_plain (kind_node h), Option.map_some, pathOf_eq,
    concat_of_not_mem (nul_not_mem_stem n) (nul_not_mem_suffix _)]

theorem path_node (fuel : Nat) : v.path fuel (.node n) = some (v.pathOf n) := pathWith_node h fuel

end

variable (v) in
/-- The links that `readdir` adds: `.`, and `..` for a node that has a parent. -/
def dotLinks (n : Nat) : List Handle :=
  .link (.node n) (v.pathOf n) dot ::
    ((v.node n).parent.map fun p => .link (.node n) (v.pathOf p) dotDot).toList

variable (v) in
/-- `node::readdir` of a node that is not a link. -/
def readdirOf (n : Nat) : List Handle := (v.listing n).map .node ++ v.dotLinks n

theorem mem_dotLinks {l : Handle} : l ∈ v.dotLinks n ↔ l = .link (.node n) (v.pathOf n) dot ∨
      ∃ p, (v.node n).parent = some p ∧ l = .link (.node n) (v.pathOf p) dotDot := by
  simp only [dotLinks, List.mem_cons, Option.mem_toList, Option.map_eq_some_iff, @eq_comm _ l]

theorem parentDir_node
    (hparent : ∀ p, (v.node n).parent = some p → (v.node p).link = none) (fuel : Nat) :
    v.parentDir (v.actsOn fuel) (.node n) =
      some ((v.node n).parent.map fun p => .link (.node n) (v.pathOf p) dotDot).toList := by
  have hparentOf : v.parentOf (.node n) = (v.node n).parent.map .node := rfl
  unfold parentDir
  rw [hparentOf]
  cases hp : (v.node n).parent with
  | none => rfl
  | some p => simp [pathWith_node (hparent p hp)]

theorem readdirWith_node (h : (v.node n).link = none) (hhost : (v.node (v.host n)).link = none)
    (hparent : ∀ p, (v.node n).parent = some p → (v.node p).link = none) (fuel : Nat) :
    v.readdirWith (v.actsOn fuel) (.node n) = some (v.readdirOf n) := by
  unfold readdirWith hostOf
  rw [actsOn_plain (kind_node hhost), pathWith_node h, parentDir_node hparent]
  rfl

/-- The first entry with the name of a child whose name no other child has. -/
theorem find?_listing {cs : List Nat} {c : Nat} (hc : c ∈ cs)
    (hdistinct : ∀ c' ∈ cs, (v.node c').name = (v.node c).name → c' = c) (rest : List Handle) :
    (cs.map Handle.node ++ rest).find? (fun child => v.name child = (v.node c).name) =
      some (.node c) := by
  induction cs with
  | nil => cases hc
  | cons d cs ih =>
    rw [List.map_cons, List.cons_append, List.find?_cons]
    by_cases hname : (v.node d).name = (v.node c).name
    · have hd := hdistinct d List.mem_cons_self hname
      simp [name, hd]
    · have hne : c ≠ d := fun heq => hname (heq ▸ rfl)
      simp only [name, hname, decide_false]
      refine ih ?_ fun c' hc' => hdistinct c' (List.mem_cons_of_mem d hc')
      exact (List.mem_cons.mp hc).resolve_left hne

theorem descend_append (acts : Handle → Option Nat) (cur : Handle) (ds es : List Str) :
    v.descend acts cur (ds ++ es) = v.descend acts cur ds >>= fun h => v.descend acts h es := by
  induction ds generalizing cur with
  | nil => rfl
  | cons d ds ih =>
    simp only [List.cons_append, descend]
    cases v.readdirWith acts cur with
    | none => rfl
    | some list =>
      dsimp only
      cases list.find? fun child => v.name child = d with
      | none => rfl
      | some child => exact ih child

/-- A path that is not empty is walked from the root. -/
theorem findWith_eq_descend (acts : Handle → Option Nat) {path : Str} (h : path ≠ []) :
    v.findWith acts path = v.descend acts (.node v.root) (pathList path) := by
  unfold findWith
  rw [if_neg h]
  split
  case isTrue hslash =>
    subst hslash
    rfl
  case isFalse => rfl

/-! ## Trees -/

/-- The nodes that are shown below `r`: the children of a mountpoint are those of the mounted
root, which is not shown itself. -/
inductive Shown (v : Vfs) (r : Nat) : Nat → Prop where
  | root : Shown v r r
  | child {n c : Nat} : Shown v r n → c ∈ v.listing n → Shown v r c

/-- The nodes that are shown by names without zero characters. -/
inductive Legible (v : Vfs) : Nat → Prop where
  | root : Legible v v.root
  | child {n c : Nat} : Legible v n → c ∈ v.listing n → nul ∉ (v.node c).name → Legible v c

theorem Legible.shown (h : Legible v n) : Shown v v.root n := by
  induction h with
  | root => exact .root
  | child _ hc _ ih => exact .child ih hc

/-- The root of a file system that is mounted on `n`. -/
structure MountedRoot (v : Vfs) (n m : Nat) : Prop where
  parent : (v.node m).parent = some n
  name : (v.node m).name = []
  directory : (v.node m).type = .directory
  plain : (v.node m).link = none
  mountpoint : (v.node n).type = .directory

/-- What is shown below `r` is a tree without links, with file systems mounted in it and names by
which siblings can be told apart. -/
structure TreeBelow (v : Vfs) (r : Nat) : Prop where
  plain : ∀ n, Shown v r n → (v.node n).link = none
  mounted : ∀ n m, Shown v r n → (v.node n).mounted = some m → MountedRoot v n m
  parent : ∀ n c, Shown v r n → c ∈ v.listing n → (v.node c).parent = some (v.host n)
  directory : ∀ n c, Shown v r n → c ∈ v.listing n → (v.node n).type = .directory
  validName : ∀ n c, Shown v r n → c ∈ v.listing n → ValidName (v.node c).name
  distinct : ∀ n c c', Shown v r n → c ∈ v.listing n → c' ∈ v.listing n →
    (v.node c).name = (v.node c').name → c = c'

/-- The tree of `vfs::root`. -/
structure IsTree (v : Vfs) : Prop extends TreeBelow v v.root where
  root_parent : (v.node v.root).parent = none
  root_name : (v.node v.root).name = []
  root_directory : (v.node v.root).type = .directory

variable (v) in
/-- Where a node stands in the tree: the components of its path. -/
def position (n : Nat) : List Str := pathList (v.pathOf n)

/-- The path of a directory ends with a slash. -/
theorem pathOf_directory (h : (v.node n).type = .directory) : v.pathOf n = v.stem n ++ ['/'] := by
  rw [pathOf_eq, h]
  rfl

theorem pathList_name_suffix {name : Str} (h : ValidName name) (type : NodeType) :
    pathList (name ++ suffix type) = [name] := by
  unfold suffix
  split
  · rw [pathList_snoc, pathList_name h.no_slash h.nonempty]
  · rw [List.append_nil, pathList_name h.no_slash h.nonempty]

/-- Below a directory a name becomes the last component. -/
theorem position_of_parent {p : Nat} (hparent : (v.node n).parent = some p)
    (hdir : (v.node p).type = .directory) (hname : ValidName (v.node n).name)
    (hnul : nul ∉ (v.node n).name) : v.position n = v.position p ++ [(v.node n).name] := by
  have hpath : v.pathOf n =
      v.stem p ++ '/' :: ((v.node n).name ++ suffix (v.node n).type) := by
    rw [pathOf_eq n, stem_eq hparent, cStr_eq_self hnul]
    simp [pathOf_directory hdir]
  rw [position, hpath, pathList_append, pathList_name_suffix hname, position,
    pathOf_directory hdir, pathList_snoc]

/-- A mounted root stands where its mountpoint does. -/
theorem MountedRoot.position_eq {m : Nat} (h : MountedRoot v n m) :
    v.position m = v.position n := by
  have hpath : v.pathOf m = v.pathOf n ++ ['/'] := by
    rw [pathOf_directory h.directory, stem_eq h.parent, h.name]
    simp [cStr]
  rw [position, hpath, pathList_snoc, position]

section

variable {r : Nat}

namespace TreeBelow

variable (h : TreeBelow v r) (hn : Shown v r n)

include h hn

theorem host_eq : (v.node (v.host n)).link = none ∧ v.position (v.host n) = v.position n ∧
      ((v.node n).type = .directory → (v.node (v.host n)).type = .directory) := by
  unfold host
  cases hm : (v.node n).mounted with
  | none => exact ⟨h.plain n hn, rfl, id⟩
  | some m =>
    have hmounted := h.mounted n m hn hm
    exact ⟨hmounted.plain, hmounted.position_eq, fun _ => hmounted.directory⟩

/-- A child stands one component below the node that shows it. -/
theorem position_child {c : Nat} (hc : c ∈ v.listing n) (hnul : nul ∉ (v.node c).name) :
    v.position c = v.position n ++ [(v.node c).name] := by
  obtain ⟨-, hposition, hdir⟩ := h.host_eq hn
  rw [position_of_parent (h.parent n c hn hc) (hdir (h.directory n c hn hc))
    (h.validName n c hn hc) hnul, hposition]

/-- A child is found by its name. -/
theorem find?_child {c : Nat} (hc : c ∈ v.listing n) :
    (v.readdirOf n).find? (fun child => v.name child = (v.node c).name) = some (.node c) :=
  find?_listing hc (fun c' hc' => h.distinct n c' c hn hc' hc) _

end TreeBelow

end

namespace IsTree

variable (h : IsTree v)

include h

/-- The parent of a shown node is no link. -/
theorem parent_plain {p : Nat} (hn : Shown v v.root n)
    (hp : (v.node n).parent = some p) : (v.node p).link = none := by
  cases hn with
  | root =>
    rw [h.root_parent] at hp
    cases hp
  | @child q _ hq hn =>
    rw [h.parent q n hq hn] at hp
    cases hp
    exact (h.host_eq hq).1

theorem readdirWith_eq (hn : Shown v v.root n) (fuel : Nat) :
    v.readdirWith (v.actsOn fuel) (.node n) = some (v.readdirOf n) :=
  readdirWith_node (h.plain n hn) (h.host_eq hn).1 (fun _ hp => h.parent_plain hn hp) fuel

theorem position_root : v.position v.root = [] := by
  rw [position, pathOf_directory h.root_directory, stem, h.root_parent]
  rfl

/-- The walk along the position of a node ends there. -/
theorem descend_position (hn : Legible v n) (fuel : Nat) :
    v.descend (v.actsOn fuel) (.node v.root) (v.position n) = .ok (.node n) := by
  induction hn with
  | root =>
    rw [h.position_root]
    rfl
  | @child n c hn hc hnul ih =>
    rw [h.position_child hn.shown hc hnul, descend_append, ih]
    show v.descend _ (.node n) [_] = _
    simp only [descend, h.readdirWith_eq hn.shown, h.find?_child hn.shown hc]

theorem pathOf_ne_nil (hn : Shown v v.root n) : v.pathOf n ≠ [] := by
  cases hn with
  | root => simp [pathOf_directory h.root_directory]
  | @child q _ hq hn =>
    have hdir := (h.host_eq hq).2.2 (h.directory q n hq hn)
    rw [pathOf_eq, stem_eq (h.parent q n hq hn), pathOf_directory hdir]
    simp

/-- Any path whose components are the position of a node leads to the node. -/
theorem findWith_of_position (hn : Legible v n) {path : Str}
    (hpath : pathList path = v.position n) (hne : path ≠ []) (fuel : Nat) :
    v.findWith (v.actsOn fuel) path = .ok (.node n) := by
  rw [findWith_eq_descend _ hne, hpath, h.descend_position hn]

end IsTree

/-- `find` takes the path of every node of the tree whose names have no zero character back to the
node, and the path of a mounted root to its mountpoint, which lists the children of the mounted
root. -/
theorem find_path (h : IsTree v) (fuel : Nat) {n : Nat} (hn : Legible v n) :
    (∃ path, v.path fuel (.node n) = some path ∧ v.find fuel path = .ok (.node n)) ∧
      ∀ m, (v.node n).mounted = some m →
        (∃ path, v.path fuel (.node m) = some path ∧ v.find fuel path = .ok (.node n)) ∧
        ∃ links, v.readdir fuel (.node n) = some ((v.node m).children.map .node ++ links) ∧
          ∀ l ∈ links, v.name l = dot ∨ v.name l = dotDot := by
  have hshown := hn.shown
  refine ⟨⟨v.pathOf n, path_node (h.plain n hshown) fuel,
    h.findWith_of_position hn rfl (h.pathOf_ne_nil hshown) fuel⟩, fun m hm => ?_⟩
  have hmounted := h.mounted n m hshown hm
  refine ⟨⟨v.pathOf m, path_node hmounted.plain fuel, ?_⟩, ?_⟩
  · refine h.findWith_of_position hn hmounted.position_eq ?_ fuel
    simp [pathOf_directory hmounted.directory]
  · have hlisting : v.listing n = (v.node m).children := by simp [listing, host, hm]
    refine ⟨v.dotLinks n, ?_, fun l hl => ?_⟩
    · rw [← hlisting]
      exact h.readdirWith_eq hshown fuel
    · rcases mem_dotLinks.mp hl with rfl | ⟨p, -, rfl⟩
      · exact .inl rfl
      · exact .inr rfl

/-- The nodes shown below `r` belong to every list that contains `r` and what its members show. -/
theorem Shown.mem {r : Nat} (h : Shown v r n) {nodes : List Nat} (hr : r ∈ nodes)
    (hclosed : ∀ n ∈ nodes, ∀ c ∈ v.listing n, c ∈ nodes) : n ∈ nodes := by
  induction h with
  | root => exact hr
  | child _ hc ih => exact hclosed _ ih _ hc

/-- The conditions of a tree at one node, in a form that can be decided. -/
def NodeOk (v : Vfs) (n : Nat) : Prop :=
  (v.node n).link = none ∧
    (∀ m ∈ (v.node n).mounted.toList, (v.node m).parent = some n ∧ (v.node m).name = [] ∧
      (v.node m).type = .directory ∧ (v.node m).link = none ∧ (v.node n).type = .directory) ∧
    ∀ c ∈ v.listing n, (v.node c).parent = some (v.host n) ∧ (v.node n).type = .directory ∧
      ValidName (v.node c).name ∧ ∀ c' ∈ v.listing n, (v.node c).name = (v.node c').name → c = c'

instance (v : Vfs) (n : Nat) : Decidable (NodeOk v n) := inferInstanceAs (Decidable (_ ∧ _ ∧ _))

/-- A tree with finitely many nodes is checked node by node. -/
theorem isTree_of_nodes (nodes : List Nat) (hroot : v.root ∈ nodes)
    (hclosed : ∀ n ∈ nodes, ∀ c ∈ v.listing n, c ∈ nodes) (hok : ∀ n ∈ nodes, NodeOk v n)
    (hparent : (v.node v.root).parent = none) (hname : (v.node v.root).name = [])
    (hdir : (v.node v.root).type = .directory) : IsTree v := by
  have hnode : ∀ n, Shown v v.root n → NodeOk v n := fun n hn => hok n (hn.mem hroot hclosed)
  refine ⟨⟨fun n hn => (hnode n hn).1, fun n m hn hm => ?_,
    fun n c hn hc => ((hnode n hn).2.2 c hc).1,
    fun n c hn hc => ((hnode n hn).2.2 c hc).2.1,
    fun n c hn hc => ((hnode n hn).2.2 c hc).2.2.1,
    fun n c c' hn hc => ((hnode n hn).2.2 c hc).2.2.2 c'⟩, hparent, hname, hdir⟩
  obtain ⟨h₁, h₂, h₃, h₄, h₅⟩ := (hnode n hn).2.1 m (by simp [hm])
  exact ⟨h₁, h₂, h₃, h₄, h₅⟩

/-- A file `f` on a file system that is mounted on `/m`. -/
def sampleVfs : Vfs where
  node n := [
    { name := [], type := .directory, children := [1] },
    { name := ['m'], type := .directory, parent := some 0, mounted := some 2 },
    { name := [], type := .directory, parent := some 1, children := [3] },
    { name := ['f'], type := .file, parent := some 2 }].getD n { name := [], type := .unknown }
  root := 0
  depth n := n
  depth_parent n p h := by
    match n with
    | 0 | n + 4 => cases h
    | 1 | 2 | 3 =>
      cases h
      decide

theorem sampleVfs_isTree : IsTree sampleVfs :=
  isTree_of_nodes [0, 1, 3] (by decide) (by decide) (by decide) rfl rfl rfl

/-- The file is found by its path `/m//f`, and the mounted root leads to the directory `/m`. -/
theorem find_path_sample : sampleVfs.find 0 ['/', 'm', '/', '/', 'f'] = .ok (.node 3) ∧
      sampleVfs.find 0 ['/', 'm', '/', '/'] = .ok (.node 1) := by
  have h1 : Legible sampleVfs 1 := .child .root (by decide) (by decide)
  have h3 : Legible sampleVfs 3 := .child h1 (by decide) (by decide)
  obtain ⟨⟨path, hpath, hfind⟩, -⟩ := find_path sampleVfs_isTree 0 h3
  obtain ⟨-, hmounted⟩ := find_path sampleVfs_isTree 0 h1
  obtain ⟨⟨path', hpath', hfind'⟩, -⟩ := hmounted 2 rfl
  have hp : path = ['/', 'm', '/', '/', 'f'] := by
    cases hpath
    decide
  have hp' : path' = ['/', 'm', '/', '/'] := by
    cases hpath'
    decide
  exact ⟨hp ▸ hfind, hp' ▸ hfind'⟩

/-- A file whose name has a zero character behind its first letter. -/
def cutVfs : Vfs where
  node n := [
    { name := [], type := .directory, children := [1] },
    { name := ['a', nul, 'b'], type := .file, parent := some 0 }].getD n
      { name := [], type := .unknown }
  root := 0
  depth n := n
  depth_parent n p h := by grind

theorem cutVfs_isTree : IsTree cutVfs :=
  isTree_of_nodes [0, 1] (by decide) (by decide) (by decide) rfl rfl rfl

/-- Its path is `/a`, where nothing is found. -/
theorem find_path_cut : IsTree cutVfs ∧ Shown cutVfs cutVfs.root 1 ∧
    cutVfs.path 0 (.node 1) = some ['/', 'a'] ∧
    cutVfs.find 0 ['/', 'a'] = .error .notFound := by
  refine ⟨cutVfs_isTree, .child .root (by decide), ?_, ?_⟩
  · decide
  · decide

end Vfs

end LudOS.Fs
