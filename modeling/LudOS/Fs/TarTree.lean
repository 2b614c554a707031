import Mathlib.Data.List.Nodup
import LudOS.Fs.TarArchive

/-!
# The tree of a tar archive

`prune_directories_names` and `attach_parents` of `fs/tar/tar.cpp`, which make a tree of the nodes
of an archive. The first takes the name of the archive away from directories, not from files. The
second looks for the parent of a node by the last component of its parent path only, and takes the
first directory of that name.

`Lists` says what a well-formed archive is: the headers of its entries follow one another up to two
blocks of zeroes. `tar_tree_mirrors_iff` says for which archives the tree is that of the archive,
and `tar_tree_wrong_parent` is one with two directories of the same name.
-/

namespace LudOS.Fs.Tar

open Lib

/-! ## The tree -/

/-- The nodes of an archive, with the parent of every node and the children of every directory. The
root directory is `none`. -/
structure TarTree where
  nodes : List TarNode
  parent : Nat → Option Nat
  children : Option Nat → List Nat

/-- `TarFS::prune_directories_names`. -/
def pruneDirectoriesNames (nodes : List TarNode) : List TarNode :=
  nodes.map fun node =>
    if node.type = .directory then { node with name := join ((pathList node.name).drop 1) ['/'] }
    else node

/-- The directory that `attach_parents` finds for a node: the first with that last component. -/
def findParent (nodes : List TarNode) (node : TarNode) : Option Nat :=
  (pathList (parentPath node.name)).getLast?.bind fun parentName =>
    nodes.findIdx? fun dir => dir.type = .directory ∧ (pathList dir.name).getLast? = some parentName

/-- The body of `attach_parents` for one node. -/
def attachParent (tree : TarTree) (i : Nat) : TarTree :=
  match tree.nodes[i]? with
  | none => tree
  | some node =>
    let parent := findParent tree.nodes node
    { tree with
      parent := Function.update tree.parent i parent
      children := Function.update tree.children parent (tree.children parent ++ [i]) }

/-- `TarFS::attach_parents`. -/
def attachParents (nodes : List TarNode) : TarTree :=
  (List.range nodes.length).foldl attachParent ⟨nodes, fun _ => none, fun _ => []⟩

/-- What the constructor of `TarFS` does with the nodes of the archive. -/
def mountTree (nodes : List TarNode) : TarTree := attachParents (pruneDirectoriesNames nodes)

/-- `tar_node::name`. -/
def TarNode.filename (node : TarNode) : Str := Fs.filename node.name

/-- `tar_node::read_impl` of a node that is not a link, into a buffer of the given length. -/
def TarImage.readImpl (image : TarImage) (node : TarNode) (offset len : Nat) : List UInt8 :=
  image.field node.dataAddr offset (min len node.size)

/-- The components that lead from the root to a node. -/
inductive TarTree.Leads (tree : TarTree) : List Str → Option Nat → Prop where
  | root : Leads tree [] none
  | child {path : List Str} {dir : Option Nat} {i : Nat} {node : TarNode} :
      Leads tree path dir → i ∈ tree.children dir → tree.nodes[i]? = some node →
      Leads tree (path ++ [node.filename]) (some i)

/-! ## Archives -/

/-- An entry of an archive. `path` are the components of its name without the top directory,
`stored` those of the whole name that are in the field `name`; the rest is in the field `prefix`. A
directory has no content. -/
structure Entry where
  path : List Str
  stored : List Str
  content : Option (List UInt8)
  deriving DecidableEq, Repr

/-- The entry is a directory. -/
def Entry.isDirectory (e : Entry) : Bool := e.content.isNone

/-- The name of the entry whose header is at an address. -/
def TarImage.wholeName (image : TarImage) (hdr : Nat) : Str :=
  let dirs := toStr (cString (image.field hdr 345 155))
  let name := toStr (cString (image.field hdr 0 100))
  if dirs = [] then name else dirs ++ '/' :: name

/-- The entry is at this offset of the archive. -/
structure TarImage.EntryAt (image : TarImage) (top : Str) (offset : Nat) (e : Entry)
    (node : TarNode) :
    Prop where
  header : image.readHeader (image.ptr offset) = some node
  type : node.type = if e.isDirectory then .directory else .file
  whole : pathList (image.wholeName (image.ptr offset)) = top :: e.path
  name : tokenize node.name ['/'] false = e.stored
  parts : [] ∉ e.stored
  nonempty : e.path ≠ []
  size : node.size = (e.content.getD []).length
  content : image.field node.dataAddr 0 node.size = e.content.getD []
  inside : offset + headerSize + node.size ≤ image.size

/-- The entries of an archive from an offset on, and their nodes, up to two blocks of zeroes. -/
inductive TarImage.Lists (image : TarImage) (top : Str) :
    Nat → List Entry → List TarNode → Prop where
  | nil {offset : Nat} : offset + 2 * headerSize ≤ image.size →
      image.byteAt (image.ptr offset) 0 = 0 →
      image.byteAt (image.ptr (offset + headerSize)) 0 = 0 → Lists image top offset [] []
  | cons {offset : Nat} {e : Entry} {entries : List Entry} {node : TarNode} {nodes : List TarNode} :
      image.EntryAt top offset e node →
      Lists image top (offset + headerSize + TarImage.blocks node.size) entries nodes →
      Lists image top offset (e :: entries) (node :: nodes)

/-- The tree has every entry once, at its place, and the content of its files. -/
structure Mirrors (image : TarImage) (entries : List Entry) (tree : TarTree) : Prop where
  once : ∀ i < entries.length, ∃ dir, (tree.children dir).count i = 1 ∧
    ∀ dir', dir' ≠ dir → i ∉ tree.children dir'
  leads : ∀ path i, tree.Leads path (some i) ↔ ∃ e, entries[i]? = some e ∧ path = e.path
  read : ∀ (i : Nat) (e : Entry) (data : List UInt8), entries[i]? = some e → e.content = some data →
    ∃ node, tree.nodes[i]? = some node ∧ node.size = data.length ∧
      ∀ offset len, offset + len ≤ data.length →
        image.readImpl node offset len = (data.drop offset).take len

/-! ## The condition -/

namespace Entry

/-- The components that the name of an entry has after `prune_directories_names`. -/
def pruned (e : Entry) : List Str := if e.isDirectory then e.stored.tail else e.stored

end Entry

/-- The entry that becomes the parent of another: the first directory with the last component of its
parent path. -/
def foundParent (entries : List Entry) (e : Entry) : Option Nat :=
  e.pruned.dropLast.getLast?.bind fun parentName =>
    entries.findIdx? fun dir => dir.isDirectory ∧ dir.pruned.getLast? = some parentName

/-- The path of an entry, or of the root. -/
def pathAt (entries : List Entry) : Option Nat → Option (List Str)
  | none => some []
  | some i => (entries[i]?).map Entry.path

/-- The last component of every name is left, and the directory that is found for an entry is the
one it lies in. -/
def Unambiguous (entries : List Entry) : Prop :=
  ∀ e ∈ entries, e.pruned.getLast? = e.path.getLast? ∧
    pathAt entries (foundParent entries e) = some e.path.dropLast

instance (entries : List Entry) : Decidable (Unambiguous entries) :=
  inferInstanceAs (Decidable (∀ e ∈ entries, _))

/-- The end of the walk, 512 bytes behind the archive, is still in memory. -/
def TarImage.Placed (image : TarImage) : Prop := image.data + headerSize + image.size < 2 ^ 32

/-! ## The walk over a well-formed archive -/

namespace TarImage

variable {image : TarImage} {top : Str} {offset : Nat} {entries : List Entry} {nodes : List TarNode}

/-- A block that starts with a zero is no header. -/
theorem readHeader_zero {hdr : Nat} (h : image.byteAt hdr 0 = 0) : image.readHeader hdr = none :=
  if_pos h

theorem before_of_placed (hplaced : image.Placed) (h : offset ≤ image.size) :
    image.Before offset := by
  unfold Placed at hplaced
  unfold Before last ptr wadd
  rw [Nat.mod_eq_of_lt (by omega), Nat.mod_eq_of_lt (by omega), Nat.mod_eq_of_lt (by omega)]
  unfold headerSize
  omega

/-- An archive at the end of memory seems to be empty. -/
theorem not_before_of_not_placed (hplaced : ¬ image.Placed) (hlarge : 2 * headerSize ≤ image.size) :
    ¬ image.Before headerSize := by
  have hfits := image.fits
  unfold Placed at hplaced
  unfold Before last ptr wadd
  omega

/-- A well-formed archive has room for the blocks at its end. -/
theorem Lists.le_size (h : image.Lists top offset entries nodes) :
    offset + 2 * headerSize ≤ image.size := by
  induction h with
  | nil hle => exact hle
  | cons _ _ ih => omega

/-- The walk finds the nodes of all entries. -/
theorem Lists.readFrom (h : image.Lists top offset entries nodes) (hplaced : image.Placed) :
    ∃ fuel, image.readFrom image.last fuel (image.ptr offset) = some nodes := by
  induction h with
  | nil hle hzero =>
    refine ⟨1, readFrom_none (before_of_placed hplaced (by omega)) (readHeader_zero hzero) 0⟩
  | @cons offset e entries node nodes hentry hrest ih =>
    obtain ⟨fuel, hrun⟩ := ih
    have hin := hentry.inside
    have hbefore := before_of_placed hplaced (show offset ≤ image.size by omega)
    have hadvance := advance_ptr hentry.header (by omega)
    unfold nextOffset at hadvance
    cases hrest with
    | nil hle hzero hzero' =>
      -- One block is skipped, and the walk ends at the other.
      rw [if_pos (readHeader_zero hzero)] at hadvance
      refine ⟨2, ?_⟩
      rw [readFrom_some hbefore hentry.header, hadvance,
        readFrom_none (before_of_placed hplaced (by omega)) (readHeader_zero hzero')]
      rfl
    | @cons _ e' _ node' _ hentry' _ =>
      rw [if_neg (by rw [hentry'.header]; exact Option.some_ne_none node')] at hadvance
      refine ⟨fuel + 1, ?_⟩
      rw [readFrom_some hbefore hentry.header, hadvance, hrun]
      rfl

end TarImage

/-! ## Names -/

section

variable {image : TarImage} {top : Str} {offset : Nat} {e : Entry} {entries : List Entry}
  {node : TarNode} {nodes : List TarNode}

/-- The node of an entry, with the name that it has when parents are looked for. -/
structure Matches (image : TarImage) (e : Entry) (node : TarNode) : Prop where
  type : node.type = if e.isDirectory then .directory else .file
  name : tokenize node.name ['/'] false = e.pruned
  no_nul : nul ∉ node.name
  parts : [] ∉ e.pruned
  size : node.size = (e.content.getD []).length
  content : image.field node.dataAddr 0 node.size = e.content.getD []

theorem filter_parts {parts : List Str} (h : [] ∉ parts) : parts.filter (!·.isEmpty) = parts := by
  refine List.filter_eq_self.mpr fun part hmem => ?_
  have hne : part ≠ [] := fun heq => h (heq ▸ hmem)
  simpa using hne

namespace Matches

variable (h : Matches image e node)

include h

theorem pathList : Fs.pathList node.name = e.pruned := by
  show (pieces ['/'].contains node.name).filter (!·.isEmpty) = e.pruned
  rw [show pieces ['/'].contains node.name = e.pruned from h.name, filter_parts h.parts]

theorem pathList_parentPath : Fs.pathList (parentPath node.name) = e.pruned.dropLast := by
  rw [Fs.pathList_parentPath h.no_nul, show pieces ['/'].contains node.name = e.pruned from h.name]
  exact filter_parts fun hmem => h.parts (List.dropLast_subset _ hmem)

theorem isDirectory : node.type = .directory ↔ e.isDirectory = true := by
  rw [h.type]
  cases e.isDirectory with
  | true => simp
  | false => simp

end Matches

/-- The names in headers are C strings. -/
theorem nul_not_mem_toStr (bytes : List UInt8) : nul ∉ toStr (cString bytes) := by
  intro hmem
  obtain ⟨c, hc, heq⟩ := List.mem_map.mp hmem
  have hne : c ≠ 0 := by simpa using List.mem_takeWhile_imp hc
  have hzero : ∀ i < 256, Char.ofNat i = nul → i = 0 := by decide +kernel
  exact hne (UInt8.toNat_inj.mp (hzero c.toNat c.toNat_lt heq))

theorem nul_not_mem_header {hdr : Nat} (h : image.readHeader hdr = some node) :
    nul ∉ node.name := by
  unfold TarImage.readHeader at h
  split at h
  · cases h
  · split at h
    · cases h
    · obtain ⟨type, -, rfl⟩ := Option.map_eq_some_iff.mp h
      exact nul_not_mem_toStr _

/-- Without its first component the name of a directory is that of the rest. -/
theorem TarImage.EntryAt.pruned (h : image.EntryAt top offset e node) :
    Matches image e (if node.type = .directory then
      { node with name := join ((Fs.pathList node.name).drop 1) ['/'] } else node) := by
  have hpieces : pieces ['/'].contains node.name = e.stored := h.name
  have hlist : Fs.pathList node.name = e.stored := by
    show (pieces ['/'].contains node.name).filter (!·.isEmpty) = e.stored
    rw [hpieces, filter_parts h.parts]
  have htype := h.type
  cases hdir : e.isDirectory with
  | true =>
    have hpruned : e.pruned = e.stored.tail := by simp [Entry.pruned, hdir]
    have hparts : [] ∉ e.stored.tail := fun hmem => h.parts (List.mem_of_mem_tail hmem)
    rw [hdir, if_pos rfl] at htype
    rw [if_pos htype]
    have hnul : ∀ part ∈ (Fs.pathList node.name).drop 1, nul ∉ part := fun part hmem =>
      nul_not_mem_piece (nul_not_mem_header h.header)
        (List.mem_filter.mp (List.mem_of_mem_drop hmem)).1
    refine ⟨by simp [hdir, htype], ?_, nul_not_mem_join hnul, hpruned ▸ hparts, h.size, h.content⟩
    show pieces ['/'].contains (join ((Fs.pathList node.name).drop 1) ['/']) = e.pruned
    rw [join_slash hnul, hlist, hpruned, List.drop_one]
    refine pieces_intercalate rfl fun part hmem => ?_
    refine ⟨fun heq => hparts (heq ▸ hmem), ?_⟩
    exact not_sep_of_mem_pieces (hpieces ▸ List.mem_of_mem_tail hmem)
  | false =>
    have hpruned : e.pruned = e.stored := by simp [Entry.pruned, hdir]
    rw [hdir, if_neg Bool.false_ne_true] at htype
    rw [if_neg (by simp [htype])]
    exact ⟨by simp [hdir, htype], hpruned ▸ h.name, nul_not_mem_header h.header, hpruned ▸ h.parts,
      h.size, h.content⟩

/-- The nodes of a well-formed archive after `prune_directories_names`. -/
theorem TarImage.Lists.pruned (h : image.Lists top offset entries nodes) :
    List.Forall₂ (Matches image) entries (pruneDirectoriesNames nodes) := by
  induction h with
  | nil => exact .nil
  | cons hentry _ ih => exact .cons hentry.pruned ih

/-! ## Parents -/

theorem findIdx?_forall₂ {α β : Type} {R : α → β → Prop} {p : α → Bool} {q : β → Bool} {as : List α}
    {bs : List β} (h : List.Forall₂ R as bs) (hpq : ∀ a b, R a b → p a = q b) :
    as.findIdx? p = bs.findIdx? q := by
  induction h with
  | nil => rfl
  | cons hab _ ih => rw [List.findIdx?_cons, List.findIdx?_cons, hpq _ _ hab, ih]

/-- The parent that is found for a node depends on the entries only. -/
theorem findParent_eq (h : List.Forall₂ (Matches image) entries nodes) (he : Matches image e node) :
    findParent nodes node = foundParent entries e := by
  unfold findParent foundParent
  rw [he.pathList_parentPath]
  congr 1
  funext parentName
  refine (findIdx?_forall₂ h fun d n hd => ?_).symm
  rw [hd.pathList]
  simp [hd.isDirectory]

/-- The parent of the node with this number. -/
def parentAt (nodes : List TarNode) (i : Nat) : Option Nat := (nodes[i]?).bind (findParent nodes)

/-- Every node is a child of the parent that is found for it, and of no other. -/
theorem attachParents_children (nodes : List TarNode) (dir : Option Nat) :
    (attachParents nodes).nodes = nodes ∧ (attachParents nodes).children dir =
        (List.range nodes.length).filter fun i => parentAt nodes i = dir := by
  have hfold : ∀ k ≤ nodes.length,
      ((List.range k).foldl attachParent ⟨nodes, fun _ => none, fun _ => []⟩).nodes = nodes ∧
        ∀ dir,
          ((List.range k).foldl attachParent ⟨nodes, fun _ => none, fun _ => []⟩).children dir =
          (List.range k).filter fun i => parentAt nodes i = dir := by
    intro k hk
    induction k with
    | zero => exact ⟨rfl, fun _ => rfl⟩
    | succ k ih =>
      obtain ⟨hnodes, hchildren⟩ := ih (by omega)
      obtain ⟨tree, htree⟩ : ∃ tree, tree =
        (List.range k).foldl attachParent ⟨nodes, fun _ => none, fun _ => []⟩ := ⟨_, rfl⟩
      rw [← htree] at hnodes hchildren
      have hget : nodes[k]? = some nodes[k] := List.getElem?_eq_getElem (by omega)
      have hparent : parentAt nodes k = findParent nodes nodes[k] := by
        unfold parentAt
        rw [hget, Option.bind_some]
      rw [List.range_succ, List.foldl_append, ← htree]
      show (attachParent tree k).nodes = nodes ∧ ∀ dir, (attachParent tree k).children dir = _
      unfold attachParent
      rw [hnodes, hget]
      refine ⟨rfl, fun dir => ?_⟩
      show Function.update tree.children (findParent nodes nodes[k]) _ dir = _
      rw [Function.update_apply, List.filter_append, ← hparent]
      by_cases hdir : dir = parentAt nodes k
      · subst hdir
        rw [if_pos rfl, hchildren]
        simp
      · rw [if_neg hdir, hchildren]
        simp [Ne.symm hdir]
  obtain ⟨hnodes, hchildren⟩ := hfold nodes.length (Nat.le_refl _)
  exact ⟨hnodes, hchildren dir⟩

end

/-! ## The tree of the archive -/

section

variable {image : TarImage} {top : Str} {offset : Nat} {e : Entry} {entries : List Entry}
  {node : TarNode} {nodes : List TarNode} {i : Nat} {path : List Str}

theorem matches_getElem? (h : List.Forall₂ (Matches image) entries nodes) (i : Nat) :
    (∀ e, entries[i]? = some e → ∃ node, nodes[i]? = some node ∧ Matches image e node) ∧
      ∀ node, nodes[i]? = some node → ∃ e, entries[i]? = some e ∧ Matches image e node := by
  induction h generalizing i with
  | nil => simp
  | @cons e node entries nodes hmatch _ ih =>
    cases i with
    | zero =>
      simp only [List.getElem?_cons_zero, Option.some.injEq]
      exact ⟨fun e' he => ⟨node, rfl, he ▸ hmatch⟩, fun node' hn => ⟨e, rfl, hn ▸ hmatch⟩⟩
    | succ i => simpa only [List.getElem?_cons_succ] using ih i

/-- The children of a directory are the entries for which it is found. -/
theorem mem_children (h : List.Forall₂ (Matches image) entries nodes) (dir : Option Nat) (i : Nat) :
    i ∈ (attachParents nodes).children dir ↔
      ∃ e, entries[i]? = some e ∧ foundParent entries e = dir := by
  rw [(attachParents_children nodes dir).2, List.mem_filter, List.mem_range, decide_eq_true_eq]
  unfold parentAt
  constructor
  · intro hchild
    obtain ⟨hlt, hparent⟩ := hchild
    have hget : nodes[i]? = some nodes[i] := List.getElem?_eq_getElem hlt
    obtain ⟨e, he, hmatch⟩ := (matches_getElem? h i).2 _ hget
    rw [hget, Option.bind_some, findParent_eq h hmatch] at hparent
    exact ⟨e, he, hparent⟩
  · intro hentry
    obtain ⟨e, he, hparent⟩ := hentry
    obtain ⟨node, hnode, hmatch⟩ := (matches_getElem? h i).1 e he
    rw [hnode, Option.bind_some, findParent_eq h hmatch]
    exact ⟨(List.getElem?_eq_some_iff.mp hnode).1, hparent⟩

theorem Matches.filename (h : Matches image e node) : node.filename = e.pruned.getLastD [] := by
  unfold TarNode.filename Fs.filename
  rw [h.name]

theorem leads_none_iff {tree : TarTree} : tree.Leads path none ↔ path = [] := by
  constructor
  · intro h
    cases h
    rfl
  · intro h
    rw [h]
    exact .root

/-- The last step of a path. -/
theorem leads_some_iff (h : List.Forall₂ (Matches image) entries nodes) :
    (attachParents nodes).Leads path (some i) ↔ ∃ e dirs, entries[i]? = some e ∧
      (attachParents nodes).Leads dirs (foundParent entries e) ∧
      path = dirs ++ [e.pruned.getLastD []] := by
  constructor
  · intro hleads
    cases hleads with
    | @child dirs dir _ node hdirs hchild hnode =>
      obtain ⟨e, he, rfl⟩ := (mem_children h dir i).mp hchild
      rw [(attachParents_children nodes none).1] at hnode
      obtain ⟨e', he', hmatch⟩ := (matches_getElem? h i).2 node hnode
      cases he.symm.trans he'
      exact ⟨e, dirs, he, hdirs, by rw [hmatch.filename]⟩
  · intro hstep
    obtain ⟨e, dirs, he, hdirs, rfl⟩ := hstep
    obtain ⟨node, hnode, hmatch⟩ := (matches_getElem? h i).1 e he
    rw [← hmatch.filename]
    refine .child hdirs ((mem_children h _ i).mpr ⟨e, he, rfl⟩) ?_
    rw [(attachParents_children nodes none).1, hnode]

/-- A path that is not empty, from its last component. -/
theorem path_eq_of_getLast? {name : Str} (h : path.getLast? = some name) :
    path = path.dropLast ++ [name] := by
  obtain ⟨dirs, rfl⟩ := List.getLast?_eq_some_iff.mp h
  rw [List.dropLast_concat]

/-- If every parent is the right one, paths lead where they are to lead. -/
theorem Unambiguous.leads (hu : Unambiguous entries)
    (h : List.Forall₂ (Matches image) entries nodes) (hne : ∀ e ∈ entries, e.path ≠ [])
    (path : List Str) (i : Nat) :
    (attachParents nodes).Leads path (some i) ↔ ∃ e, entries[i]? = some e ∧ path = e.path := by
  -- The last component of an entry that is at its place.
  have hlast : ∀ e ∈ entries, e.path = e.path.dropLast ++ [e.pruned.getLastD []] := by
    intro e he
    obtain ⟨name, hname⟩ := Option.ne_none_iff_exists'.mp
      (fun hnone => hne e he (List.getLast?_eq_none_iff.mp hnone) : e.path.getLast? ≠ none)
    rw [List.getLastD_eq_getLast?, (hu e he).1, hname]
    exact path_eq_of_getLast? hname
  constructor
  · have hpaths : ∀ path dir, (attachParents nodes).Leads path dir →
        pathAt entries dir = some path := by
      intro path dir hleads
      induction hleads with
      | root => rfl
      | @child dirs dir i node _ hchild hnode ih =>
        obtain ⟨e, he, rfl⟩ := (mem_children h dir i).mp hchild
        rw [(attachParents_children nodes none).1] at hnode
        obtain ⟨e', he', hmatch⟩ := (matches_getElem? h i).2 node hnode
        cases he.symm.trans he'
        have hmem := List.mem_of_getElem? he
        have hdirs : e.path.dropLast = dirs := Option.some.inj ((hu e hmem).2.symm.trans ih)
        show (entries[i]?).map Entry.path = _
        rw [he, Option.map_some, hmatch.filename, ← hdirs, ← hlast e hmem]
    intro hleads
    obtain ⟨e, he, hpath⟩ := Option.map_eq_some_iff.mp (hpaths path (some i) hleads)
    exact ⟨e, he, hpath.symm⟩
  · intro hentry
    obtain ⟨e, he, rfl⟩ := hentry
    induction hlen : e.path.length using Nat.strong_induction_on generalizing e i with
    | _ len ih =>
      have hmem := List.mem_of_getElem? he
      have hsplit := hlast e hmem
      refine (leads_some_iff h).mpr ⟨e, e.path.dropLast, he, ?_, hsplit⟩
      have hparent := (hu e hmem).2
      cases hfound : foundParent entries e with
      | none =>
        rw [hfound] at hparent
        exact leads_none_iff.mpr (Option.some.inj hparent).symm
      | some j =>
        rw [hfound] at hparent
        obtain ⟨d, hd, hdpath⟩ := Option.map_eq_some_iff.mp hparent
        rw [← hdpath]
        refine ih d.path.length ?_ j d hd rfl
        rw [hdpath, List.length_dropLast, ← hlen]
        have hpos := List.length_pos_of_ne_nil (hne e hmem)
        omega

/-- If paths lead where they are to lead, every parent is the right one. -/
theorem unambiguous_of_leads (h : List.Forall₂ (Matches image) entries nodes)
    (hparts : ∀ e ∈ entries, [] ∉ e.path)
    (hleads : ∀ path i, (attachParents nodes).Leads path (some i) ↔
      ∃ e, entries[i]? = some e ∧ path = e.path) : Unambiguous entries := by
  intro e hmem
  obtain ⟨i, he⟩ := List.mem_iff_getElem?.mp hmem
  obtain ⟨e', dirs, he', hdirs, hpath⟩ := (leads_some_iff h).mp ((hleads e.path i).mpr ⟨e, he, rfl⟩)
  cases he.symm.trans he'
  constructor
  · cases hlast : e.pruned.getLast? with
    | none =>
      -- An empty component is none of the path.
      rw [List.getLastD_eq_getLast?, hlast] at hpath
      refine absurd ?_ (hparts e hmem)
      rw [hpath]
      simp
    | some name =>
      rw [List.getLastD_eq_getLast?, hlast] at hpath
      rw [hpath, List.getLast?_concat]
      rfl
  · rw [hpath, List.dropLast_concat]
    cases hfound : foundParent entries e with
    | none =>
      rw [hfound] at hdirs
      rw [leads_none_iff.mp hdirs]
      rfl
    | some j =>
      rw [hfound] at hdirs
      obtain ⟨d, hd, rfl⟩ := (hleads dirs j).mp hdirs
      show (entries[j]?).map Entry.path = _
      rw [hd, Option.map_some]

/-! ## Content -/

theorem field_zero (image : TarImage) (ptr n : Nat) {offset len : Nat} (h : offset + len ≤ n) :
    image.field ptr offset len = ((image.field ptr 0 n).drop offset).take len := by
  unfold TarImage.field
  refine List.ext_getElem (by simp; omega) fun i hi hi' => ?_
  simp

/-- The content of a file is read from its node. -/
theorem Matches.readImpl (h : Matches image e node) {data : List UInt8}
    (hdata : e.content = some data) {offset len : Nat} (hle : offset + len ≤ data.length) :
    image.readImpl node offset len = (data.drop offset).take len := by
  have hsize : node.size = data.length := by rw [h.size, hdata, Option.getD_some]
  have hcontent : image.field node.dataAddr 0 data.length = data := by
    rw [← hsize, h.content, hdata, Option.getD_some]
  unfold TarImage.readImpl
  rw [Nat.min_eq_left (by omega), field_zero image _ data.length hle, hcontent]

/-- The tree of a well-formed archive mirrors it if the parents are the right ones. -/
theorem mirrors_iff (h : List.Forall₂ (Matches image) entries nodes)
    (hpaths : ∀ e ∈ entries, e.path ≠ [] ∧ [] ∉ e.path) :
    Mirrors image entries (attachParents nodes) ↔ Unambiguous entries := by
  constructor
  · intro hmirrors
    exact unambiguous_of_leads h (fun e he => (hpaths e he).2) hmirrors.leads
  · intro hu
    refine ⟨fun i hi => ?_, hu.leads h fun e he => (hpaths e he).1, fun i e data he hdata => ?_⟩
    · have hget : entries[i]? = some entries[i] := List.getElem?_eq_getElem hi
      refine ⟨foundParent entries entries[i], ?_, fun dir hne hmem => ?_⟩
      · refine List.count_eq_one_of_mem ?_ ((mem_children h _ i).mpr ⟨_, hget, rfl⟩)
        rw [(attachParents_children nodes _).2]
        exact List.nodup_range.filter _
      · obtain ⟨e, he, hfound⟩ := (mem_children h dir i).mp hmem
        cases hget.symm.trans he
        exact hne hfound.symm
    · obtain ⟨node, hnode, hmatch⟩ := (matches_getElem? h i).1 e he
      refine ⟨node, by rw [(attachParents_children nodes none).1, hnode], ?_,
        fun offset len hle => ?_⟩
      · rw [hmatch.size, hdata, Option.getD_some]
      · exact hmatch.readImpl hdata hle

/-- Components of names are not empty. -/
theorem TarImage.Lists.paths (h : image.Lists top offset entries nodes) :
    ∀ e ∈ entries, e.path ≠ [] ∧ [] ∉ e.path := by
  induction h with
  | nil => simp
  | @cons offset e entries node nodes hentry _ ih =>
    intro e' hmem
    rcases List.mem_cons.mp hmem with rfl | hmem
    · refine ⟨hentry.nonempty, fun hempty => ?_⟩
      have hwhole : [] ∈ pathList (image.wholeName (image.ptr offset)) := by
        rw [hentry.whole]
        exact List.mem_cons_of_mem top hempty
      have hword := (List.mem_filter.mp hwhole).2
      simp at hword
    · exact ih e' hmem

/-- The tree of a well-formed archive is that of its entries if and only if the archive does not lie
at the very end of memory, and the first directory with the name of a parent is that parent. -/
theorem tar_tree_mirrors_iff (h : image.Lists top headerSize entries nodes) :
    ∃ fuel nodes', image.listNodes fuel = some nodes' ∧ (Mirrors image entries (mountTree nodes') ↔
        (entries ≠ [] → image.Placed) ∧ Unambiguous entries) := by
  by_cases hplaced : image.Placed
  · obtain ⟨fuel, hrun⟩ := h.readFrom hplaced
    refine ⟨fuel, nodes, hrun, ?_⟩
    rw [mountTree, mirrors_iff h.pruned h.paths]
    exact ⟨fun hu => ⟨fun _ => hplaced, hu⟩, fun hu => hu.2⟩
  · have hle := h.le_size
    have hstop := TarImage.readFrom_stop (TarImage.not_before_of_not_placed hplaced (by omega)) 0
    refine ⟨1, [], hstop, ?_⟩
    constructor
    · intro hmirrors
      -- Without nodes there is nothing at the path of an entry.
      have hempty : entries = [] := by
        cases hentries : entries with
        | nil => rfl
        | cons e rest =>
          obtain ⟨dir, hcount, -⟩ := hmirrors.once 0 (by simp [hentries])
          cases hcount
      rw [hempty]
      exact ⟨fun hne => absurd rfl hne, fun e he => by cases he⟩
    · intro hcond
      have hempty : entries = [] := by
        by_contra hne
        exact hplaced (hcond.1 hne)
      rw [hempty]
      exact (mirrors_iff .nil (by simp)).mpr fun e he => by cases he

end

/-! ## Two archives -/

/-- The header of an entry. -/
def headerBlock (name size chksum : List UInt8) (typeflag : UInt8) (i : Nat) : UInt8 :=
  if i < 100 then name.getD i 0
  else if 124 ≤ i ∧ i < 136 then size.getD (i - 124) 0
  else if 148 ≤ i ∧ i < 156 then chksum.getD (i - 148) 0
  else if i = 156 then typeflag
  else 0

/-- An archive of the given blocks, with zeroes behind them. -/
def blockImage (blocks : List (Nat → UInt8)) : TarImage where
  memory := fun i => if i < 0xC1000000 then 0
    else (blocks.getD ((i - 0xC1000000) / 512) fun _ => 0) ((i - 0xC1000000) % 512)
  data := 0xC1000000
  size := 4096
  fits := by decide
  small := by decide
  large := by decide

/-- An archive `t/` with the file `t/f`, which has one byte. -/
def oneFileImage : TarImage :=
  blockImage [headerBlock [116, 47] [] [55, 48, 48] 53,
    headerBlock [116, 47, 102] [49] [49, 49, 53, 50] 48, fun i => if i = 0 then 120 else 0]

theorem lists_oneFile : oneFileImage.Lists ['t'] headerSize [⟨[['f']], [['t'], ['f']], some [120]⟩]
    [⟨['t', '/', 'f'], .file, [], 0xC1000400, 1, ⟨0, 0, 0⟩⟩] := by
  refine .cons ⟨?_, ?_, ?_, ?_, ?_, ?_, ?_, ?_, ?_⟩ (.nil ?_ ?_ ?_)
  all_goals decide +kernel

/-- The file is found under its name. -/
theorem tar_tree_mirrors_one_file : ∃ fuel nodes, oneFileImage.listNodes fuel = some nodes ∧
    Mirrors oneFileImage [⟨[['f']], [['t'], ['f']], some [120]⟩] (mountTree nodes) := by
  obtain ⟨fuel, nodes, hrun, hiff⟩ := tar_tree_mirrors_iff lists_oneFile
  refine ⟨fuel, nodes, hrun, hiff.mpr ⟨fun _ => ?_, by decide⟩⟩
  unfold TarImage.Placed
  decide

/-- The blocks of an archive `t/` with the directories `t/a/`, `t/b/` and `t/b/a/` and the file
`t/b/a/f`, which has one byte. -/
def sameNameBlocks : List (Nat → UInt8) :=
  [headerBlock [116, 47] [] [55, 48, 48] 53,
    headerBlock [116, 47, 97, 47] [] [49, 49, 53, 48] 53,
    headerBlock [116, 47, 98, 47] [] [49, 49, 53, 49] 53,
    headerBlock [116, 47, 98, 47, 97, 47] [] [49, 51, 55, 49] 53,
    headerBlock [116, 47, 98, 47, 97, 47, 102] [49] [49, 54, 49, 51] 48,
    fun i => if i = 0 then 120 else 0]

/-- That archive in memory. -/
def sameNameImage : TarImage := blockImage sameNameBlocks

/-- Its entries. -/
def sameNameEntries : List Entry :=
  [⟨[['a']], [['t'], ['a']], none⟩, ⟨[['b']], [['t'], ['b']], none⟩,
    ⟨[['b'], ['a']], [['t'], ['b'], ['a']], none⟩,
    ⟨[['b'], ['a'], ['f']], [['t'], ['b'], ['a'], ['f']], some [120]⟩]

/-- The nodes for them. -/
def sameNameNodes : List TarNode :=
  [⟨['t', '/', 'a', '/'], .directory, [], 0xC1000400, 0, ⟨0, 0, 0⟩⟩,
    ⟨['t', '/', 'b', '/'], .directory, [], 0xC1000600, 0, ⟨0, 0, 0⟩⟩,
    ⟨['t', '/', 'b', '/', 'a', '/'], .directory, [], 0xC1000800, 0, ⟨0, 0, 0⟩⟩,
    ⟨['t', '/', 'b', '/', 'a', '/', 'f'], .file, [], 0xC1000A00, 1, ⟨0, 0, 0⟩⟩]

theorem lists_sameName : sameNameImage.Lists ['t'] headerSize sameNameEntries sameNameNodes := by
  refine .cons ⟨?_, ?_, ?_, ?_, ?_, ?_, ?_, ?_, ?_⟩ (.cons ⟨?_, ?_, ?_, ?_, ?_, ?_, ?_, ?_, ?_⟩
    (.cons ⟨?_, ?_, ?_, ?_, ?_, ?_, ?_, ?_, ?_⟩ (.cons ⟨?_, ?_, ?_, ?_, ?_, ?_, ?_, ?_, ?_⟩
      (.nil ?_ ?_ ?_))))
  all_goals decide +kernel

/-- The file is put into the first directory `a`. -/
theorem tar_tree_wrong_parent : sameNameImage.Lists ['t'] headerSize sameNameEntries sameNameNodes ∧
    ∃ fuel, sameNameImage.listNodes fuel = some sameNameNodes ∧
      ¬ Mirrors sameNameImage sameNameEntries (mountTree sameNameNodes) := by
  obtain ⟨fuel, hrun⟩ := lists_sameName.readFrom (by unfold TarImage.Placed; decide)
  refine ⟨lists_sameName, fuel, hrun, fun hmirrors => ?_⟩
  rw [mountTree, mirrors_iff lists_sameName.pruned lists_sameName.paths] at hmirrors
  exact absurd hmirrors (by decide)

end LudOS.Fs.Tar
