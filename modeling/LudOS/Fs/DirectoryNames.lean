import Mathlib.Data.List.Nodup
import LudOS.Utils.Span
import LudOS.Fs.Vfs

/-!
# Names in directories

`create`, `rename` and `remove` of `vfs::node`, with what `vfs_root` and the nodes of an ext2 volume
do for them. A directory of a volume is the list of its entries; the names `.` and `..` among them
are not shown as children. A node of a volume is an object that `readdir_impl` makes anew, with the
inode, the name and the directory it was found in. Symbolic links of a volume are treated as files.

`rename` looks for the new name among what the parent shows, and what it shows is not what it has
when something is mounted on it. `create` does not look at all. `unique_names_iff` says which
sequences of operations keep the names of every directory apart, and `create_twice` is one that does
not. `remove_impl_reports_iff` is about the removal of a child of `vfs_root`: what it returns is the
outcome of its last comparison.
-/

namespace LudOS.Fs.DirectoryNames

open Lib

/-! ## Directories -/

/-- `ext2::DirectoryEntry`. -/
structure Entry where
  inode : Nat
  name : Str
  deriving DecidableEq, Repr

/-- `ext2::Inode`, with the entries that `read_directory` finds in its data. -/
structure Inode where
  entries : List Entry
  type : NodeType
  linksCount : Nat

/-- `vfs_root`: the nodes that `add_node` has made, and `m_children`. -/
structure VfsRoot where
  name : Nat → Str
  type : Nat → NodeType
  children : List Nat
  next : Nat
  nodup : children.Nodup
  lt : ∀ k ∈ children, k < next

/-- `vfs_root` and the inodes of the volumes. -/
structure State where
  root : VfsRoot
  inodes : (volume inode : Nat) → Inode

/-- A node. `id` tells apart the objects that a volume has for one file; `volumeRoot` is the root of
a volume. -/
inductive Obj where
  | vfsRoot
  | entry (k : Nat)
  | ext2 (id volume inode : Nat) (filename : Str) (parent : Obj)
  | volumeRoot (id volume : Nat)
  deriving DecidableEq, Repr

/-- An element of the result of `readdir`: a node, or one of the links `.` and `..`. -/
inductive Listed where
  | obj (o : Obj)
  | link (name : Str)
  deriving DecidableEq, Repr

/-- `m_mounted_node` of all nodes, and `m_parent` of the roots of volumes. -/
structure Mounts where
  mounted : Obj → Option Obj
  mountpoint : Nat → Option Obj
  depth : Obj → Nat
  depth_mounted : ∀ d e, mounted d = some e → depth e < depth d

/-- `ReservedInodes::RootInode`. -/
def rootInode : Nat := 2

/-- The volume and the inode of an `ext2_node`. -/
def Obj.place : Obj → Option (Nat × Nat)
  | .vfsRoot => none
  | .entry _ => none
  | .ext2 _ volume inode _ _ => some (volume, inode)
  | .volumeRoot _ volume => some (volume, rootInode)

/-- The loop of `std::remove_if` in `vfs_root::remove_impl`: what is left in `found`, which every
comparison sets, and the children that stay. -/
def removeIf (child : Listed) : (found : Bool) → List Nat → Bool × List Nat
  | found, [] => (found, [])
  | _, node :: nodes =>
    let found := decide (.obj (.entry node) = child)
    let rest := removeIf child found nodes
    (rest.1, if found then rest.2 else node :: rest.2)

theorem removeIf_eq (child : Listed) (found : Bool) (nodes : List Nat) :
    removeIf child found nodes =
      ((nodes.getLast?.map fun k => decide (.obj (.entry k) = child)).getD found,
        nodes.filter fun k => .obj (.entry k) ≠ child) := by
  induction nodes generalizing found with
  | nil => rfl
  | cons node nodes ih =>
    rw [removeIf, ih, List.getLast?_cons]
    by_cases hnode : .obj (.entry node) = child <;> cases nodes.getLast? <;> simp [hnode]

namespace VfsRoot

variable (r : VfsRoot)

/-- `vfs_root::add_node`. -/
def add (name : Str) (type : NodeType) : VfsRoot where
  name := Function.update r.name r.next name
  type := Function.update r.type r.next type
  children := r.children ++ [r.next]
  next := r.next + 1
  nodup := by
    refine List.nodup_append.mpr ⟨r.nodup, by simp, fun k hk j hj => ?_⟩
    have hlt := r.lt k hk
    have hnext := List.mem_singleton.mp hj
    omega
  lt k hk := by
    rcases List.mem_append.mp hk with hk | hk
    · exact Nat.lt_succ_of_lt (r.lt k hk)
    · grind

/-- Store a new `m_name`. -/
def setName (k : Nat) (name : Str) : VfsRoot := { r with name := Function.update r.name k name }

/-- Take a child away. -/
def erase (child : Listed) : VfsRoot where
  name := r.name
  type := r.type
  children := (removeIf child false r.children).2
  next := r.next
  nodup := by
    rw [removeIf_eq]
    exact r.nodup.filter _
  lt j hj := by
    rw [removeIf_eq] at hj
    exact r.lt j (List.mem_of_mem_filter hj)

theorem children_erase (child : Listed) :
    (r.erase child).children = r.children.filter fun k => .obj (.entry k) ≠ child :=
  congrArg Prod.snd (removeIf_eq child false r.children)

/-- A node that is no child leaves the children as they are. -/
theorem erase_eq_self {child : Listed} (h : ∀ k ∈ r.children, .obj (.entry k) ≠ child) :
    r.erase child = r := by
  have hchildren : (r.erase child).children = r.children := by
    rw [children_erase]
    exact List.filter_eq_self.mpr fun k hk => decide_eq_true (h k hk)
  cases r
  simp only [erase] at hchildren ⊢
  simp only [hchildren]

/-- The names of the children. -/
def names : List Str := r.children.map r.name

end VfsRoot

/-- The name is that of a child. -/
def shown (name : Str) : Bool := name ≠ dot ∧ name ≠ dotDot

/-- The names of the children that a directory of a volume shows. -/
def visible (entries : List Entry) : List Str := (entries.map Entry.name).filter shown

/-- Give the first entry of an inode a new name. -/
def renameEntry (inode : Nat) (name : Str) : List Entry → List Entry
  | [] => []
  | e :: es => if e.inode = inode then { e with name := name } :: es
    else e :: renameEntry inode name es

namespace State

variable (s : State)

/-- `write_inode`, and the data of the inode. -/
def setInode (volume inode : Nat) (node : Inode) : State :=
  { s with inodes := fun v i => if v = volume ∧ i = inode then node else s.inodes v i }

/-- `node::name`. -/
def nameOf : Listed → Str
  | .obj .vfsRoot => []
  | .obj (.entry k) => s.root.name k
  | .obj (.ext2 _ _ _ filename _) => filename
  | .obj (.volumeRoot _ _) => []
  | .link name => name

/-- `node::type`. -/
def typeOf : Obj → NodeType
  | .vfsRoot => .directory
  | .entry k => s.root.type k
  | .ext2 _ volume inode _ _ => (s.inodes volume inode).type
  | .volumeRoot _ volume => (s.inodes volume rootInode).type

/-- `readdir_impl`. -/
def readdirImpl (d : Obj) : List Listed :=
  match d, d.place with
  | .vfsRoot, _ => s.root.children.map fun k => .obj (.entry k)
  | _, some (volume, inode) =>
    ((s.inodes volume inode).entries.filter fun e => shown e.name).map fun e =>
      .obj (.ext2 0 volume e.inode e.name d)
  | _, none => []

end State

namespace Mounts

variable (m : Mounts)

/-- `m_parent`. -/
def parentOf : Obj → Option Obj
  | .vfsRoot => none
  | .entry _ => some .vfsRoot
  | .ext2 _ _ _ _ parent => some parent
  | .volumeRoot id _ => m.mountpoint id

/-- `m_mounted_node`, or the node itself. -/
def cover (d : Obj) : Obj := (m.mounted d).getD d

/-- `node::readdir`. -/
def readdir (s : State) (d : Obj) : List Listed :=
  s.readdirImpl (m.cover d) ++ .link dot :: if (m.parentOf d).isSome then [.link dotDot] else []

end Mounts

/-! ## Operations -/

/-- Programs on the directories. -/
abbrev M := EStateM Fault State

section

variable (volume : Nat)

/-- The entries of a directory. -/
def readDirectoryEntries (inode : Nat) : M (List Entry) := do
  let s ← get
  pure (s.inodes volume inode).entries

/-- `write_directory_entries`. -/
def writeDirectoryEntries (inode : Nat) (entries : List Entry) : M Unit :=
  modify fun s => s.setInode volume inode { s.inodes volume inode with entries := entries }

/-- `create_dir_entry`. The field for the name has 255 bytes, and the count 16 bits. -/
def createDirEntry (inode : Nat) (name : Str) : M Entry := do
  check .outOfBounds (name.length ≤ 255)
  modify fun s =>
    let info := s.inodes volume inode
    s.setInode volume inode { info with linksCount := (info.linksCount + 1) % 2 ^ 16 }
  pure ⟨inode, name⟩

/-- The type that a node has for the type it was created with. -/
def inodeType : NodeType → NodeType
  | .directory => .directory
  | .symLink => .symLink
  | .unknown => .file
  | .file => .file
  | .fifo => .file

/-- `ext2_node::create_child` and the rest of `ext2_node::create_impl`, for the inode that
`alloc_inode` has found. -/
def createChild (inode : Nat) (name : Str) (type : NodeType) (freeInode : Nat) : M Unit := do
  let dirEntries ← readDirectoryEntries volume inode
  let entry ← createDirEntry volume freeInode name
  writeDirectoryEntries volume inode (dirEntries ++ [entry])
  modify fun s => s.setInode volume freeInode ⟨[], inodeType type, 1⟩
  if type = .directory then do
    let self ← createDirEntry volume freeInode dot
    let parent ← createDirEntry volume inode dotDot
    writeDirectoryEntries volume freeInode [self, parent]

/-- `ext2_node::update_dir_entry`. -/
def updateDirEntry (dir inode : Nat) (name : Str) : M Unit := do
  let entries ← readDirectoryEntries volume dir
  if entries.any (·.inode = inode) then do
    check .outOfBounds (name.length ≤ 255)
    writeDirectoryEntries volume dir (renameEntry inode name entries)

/-- `decrease_link_count`. The data of an inode without links is given up. -/
def decreaseLinkCount (inode : Nat) : M Unit :=
  modify fun s =>
    let info := s.inodes volume inode
    let links := info.linksCount - 1
    s.setInode volume inode
      { info with linksCount := links, entries := if links = 0 then [] else info.entries }

/-- `ext2_node::remove_child`. -/
def removeChild (inode : Nat) (name : Str) : M Unit := do
  let dirEntries ← readDirectoryEntries volume inode
  each (fun e => decreaseLinkCount volume e.inode) (dirEntries.filter (·.name = name))
  writeDirectoryEntries volume inode (dirEntries.filter (·.name ≠ name))

end

/-- `create_impl`; the result is the new node. `free` is what `alloc_inode` finds. -/
def createImpl (d : Obj) (name : Str) (type : NodeType) (free : Option Nat) : M (Option Obj) :=
  match d, d.place, free with
  | .vfsRoot, _, _ => do
    let s ← get
    set { s with root := s.root.add name type }
    pure (some (.entry s.root.next))
  | _, some (volume, inode), some freeInode => do
    createChild volume inode name type freeInode
    pure (some (.ext2 0 volume freeInode name d))
  | _, some _, none => pure none
  | _, none, _ => pure none

/-- `m_name` and `rename_impl`. -/
def renameImpl (m : Mounts) (c : Obj) (name : Str) : M Unit :=
  match c, c.place, (m.parentOf c).bind Obj.place with
  | .entry k, _, _ => modify fun s => { s with root := s.root.setName k name }
  | _, some (_, inode), some (volume, dir) => updateDirEntry volume dir inode name
  | _, _, _ => pure ()

section

variable (m : Mounts)

/-- `node::create`, which goes on to the node that is mounted on this one. -/
def createFrom (name : Str) (type : NodeType) (free : Option Nat) :
    (depth : Nat) → Obj → M (Option Obj)
  | 0, d => do
    let s ← get
    check .assertion (s.typeOf d = .directory)
    createImpl d name type free
  | depth + 1, d => do
    let s ← get
    check .assertion (s.typeOf d = .directory)
    match m.mounted d with
    | none => createImpl d name type free
    | some e => createFrom name type free depth e

/-- `node::create`. -/
def create (d : Obj) (name : Str) (type : NodeType) (free : Option Nat) : M (Option Obj) :=
  createFrom m name type free (m.depth d) d

/-- The check of `node::rename`. -/
def alreadyExists (s : State) (c : Obj) (name : Str) : Bool :=
  (m.parentOf c).any fun p => name ∈ (m.readdir s p).map s.nameOf

/-- `node::rename`; `false` for `AlreadyExists`. -/
def rename (c : Obj) (name : Str) : M Bool := do
  let s ← get
  if alreadyExists m s c name then pure false
  else do
    renameImpl m c name
    pure true

/-- `vfs_root::remove_impl`. -/
def removeNode (c : Listed) : M Bool := do
  let s ← get
  set { s with root := s.root.erase c }
  pure (removeIf c false s.root.children).1

/-- The loop of `ext2_node::remove_impl` over what the node to be removed shows. A link is a
directory as well, but the `remove` of a link does nothing. -/
def removeShown (below : Obj → Listed → M Bool) (c : Listed) : M Unit :=
  match c with
  | .obj o => do
    let s ← get
    if s.typeOf o = .directory then
      each (fun x => do
        let _ ← below (m.cover o) x) (m.readdir s o)
    else pure ()
  | .link _ => pure ()

/-- `ext2_node::remove_impl`, with the `remove_impl` of the nodes below. -/
def removeEntry (below : Obj → Listed → M Bool) (volume inode : Nat) (c : Listed) : M Bool := do
  removeShown m below c
  let s ← get
  removeChild volume inode (s.nameOf c)
  pure true

/-- `remove_impl`; `fuel` bounds the depth of the directories. -/
def removeImpl : (fuel : Nat) → Obj → Listed → M Bool
  | fuel, d, c =>
    match d, d.place, fuel with
    | .vfsRoot, _, _ => removeNode c
    | _, some (volume, inode), fuel + 1 => removeEntry m (removeImpl fuel) volume inode c
    | _, some _, 0 => throw .panic
    | _, none, _ => pure false

/-- `node::remove`. -/
def remove (fuel : Nat) (d : Obj) (c : Listed) : M Bool := removeImpl m fuel (m.cover d) c

end

/-- The operations on directories. -/
inductive Op where
  | create (d : Obj) (name : Str) (type : NodeType) (free : Option Nat)
  | rename (c : Obj) (name : Str)
  | remove (d : Obj) (c : Listed)

/-- Carry out an operation; the result is whether it has succeeded. -/
def exec (m : Mounts) (fuel : Nat) : Op → M Bool
  | .create d name type free => do
    let node ← create m d name type free
    pure node.isSome
  | .rename c name => rename m c name
  | .remove d c => remove m fuel d c

/-- An operation that returns. -/
def Step (m : Mounts) (s : State) (op : Op) (ok : Bool) (t : State) : Prop :=
  ∃ fuel, (exec m fuel op).run s = .ok ok t

/-! ## Unique names -/

/-- No directory has two children of one name. -/
def Unique (s : State) : Prop :=
  s.root.names.Nodup ∧ ∀ volume inode, (visible (s.inodes volume inode).entries).Nodup

/-- The names of a directory, once a child has been created. -/
def State.namesCreated (s : State) (d : Obj) (name : Str) : List Str :=
  match d, d.place with
  | .vfsRoot, _ => s.root.names ++ [name]
  | _, some (volume, inode) => visible ((s.inodes volume inode).entries ++ [⟨0, name⟩])
  | _, none => []

namespace Mounts

variable (m : Mounts)

/-- The node at the end of a chain of mounted nodes. -/
def hostFrom : (depth : Nat) → Obj → Obj
  | 0, d => d
  | depth + 1, d =>
    match m.mounted d with
    | none => d
    | some e => hostFrom depth e

/-- The directory that `create` makes a node in. -/
def host (d : Obj) : Obj := m.hostFrom (m.depth d) d

/-- The names of the parent of a node, once the node has been renamed. -/
def namesRenamed (s : State) (c : Obj) (name : Str) : List Str :=
  match c, c.place, (m.parentOf c).bind Obj.place with
  | .entry k, _, _ => (s.root.setName k name).names
  | _, some (_, inode), some (volume, dir) =>
    visible (renameEntry inode name (s.inodes volume dir).entries)
  | _, _, _ => []

/-- The names of the directory that an operation is meant for, once it has been carried out. -/
def namesAfter (s : State) : Op → List Str
  | .create d name _ _ => s.namesCreated (m.host d) name
  | .rename c name => m.namesRenamed s c name
  | .remove _ _ => []

/-- The operation would give two children of a directory the same name. -/
def Clash (s : State) (op : Op) : Prop := ¬ (m.namesAfter s op).Nodup

instance (s : State) (op : Op) : Decidable (m.Clash s op) := inferInstanceAs (Decidable (¬ _))

/-- Names stay unique all along a sequence of operations, and an operation that would give two
children the same name fails and changes nothing. -/
def Kept : List Op → State → Prop
  | [], s => Unique s
  | op :: ops, s => Unique s ∧ ∀ ok t, Step m s op ok t →
      (m.Clash s op → ok = false ∧ t = s) ∧ Kept ops t

end Mounts

section

variable {m : Mounts} {s t : State} {volume inode : Nat} {name : Str} {u : Unit} {ok : Bool}
  {type : NodeType} {d : Obj}

theorem Unique.setInode (hs : Unique s) {node : Inode} (hnode : (visible node.entries).Nodup) :
    Unique (s.setInode volume inode node) := by
  refine ⟨hs.1, fun v i => ?_⟩
  show (visible (if v = volume ∧ i = inode then node else s.inodes v i).entries).Nodup
  split
  · exact hnode
  · exact hs.2 v i

section

variable {below : Obj → Listed → M Bool}
  (hbelow : ∀ d c s t ok, Unique s → (below d c).run s = .ok ok t → Unique t)

include hbelow

end

end

/-- `vfs_root` without children, and a volume whose root directory is empty. -/
def emptyState : State where
  root := ⟨fun _ => [], fun _ => .file, [], 0, List.nodup_nil, nofun⟩
  inodes _ _ := ⟨[], .directory, 2⟩

/-- The last comparison decides. -/
theorem removeIf_found_iff {child : Listed} {nodes : List Nat} :
    (removeIf child false nodes).1 = true ↔
      ∃ k, nodes.getLast? = some k ∧ .obj (.entry k) = child := by
  rw [removeIf_eq]
  cases nodes.getLast? with
  | none => simp
  | some k => simp

/-- `remove_impl` succeeds exactly when the node was a child, takes only that one away, and changes
nothing when it returns `NotFound`. -/
def ReportsRemoval (s : State) (c : Listed) : Prop :=
  ∃ found t, (removeNode c).run s = .ok found t ∧
    (found = true ↔ ∃ k ∈ s.root.children, c = .obj (.entry k)) ∧
    t.root.children = s.root.children.filter (fun k => c ≠ .obj (.entry k)) ∧
      (found = false → t = s)

/-- The last comparison of `remove_if` decides what is reported. -/
theorem remove_impl_reports_iff (s : State) (c : Listed) :
    ReportsRemoval s c ↔
      ∀ k ∈ s.root.children, c = .obj (.entry k) → s.root.children.getLast? = some k := by
  constructor
  · rintro ⟨found, t, hrun, hfound, -, -⟩ k hk rfl
    cases hrun
    obtain ⟨j, hlast, heq⟩ := removeIf_found_iff.mp (hfound.mpr ⟨k, hk, rfl⟩)
    cases heq
    exact hlast
  · intro hlast
    have hfound : (removeIf c false s.root.children).1 = true ↔
        ∃ k ∈ s.root.children, c = .obj (.entry k) := by
      rw [removeIf_found_iff]
      constructor
      · rintro ⟨k, hk, rfl⟩
        exact ⟨k, List.mem_of_getLast? hk, rfl⟩
      · rintro ⟨k, hk, rfl⟩
        exact ⟨k, hlast k hk rfl, rfl⟩
    refine ⟨_, _, rfl, hfound, ?_, fun hnot => ?_⟩
    · exact (s.root.children_erase c).trans (List.filter_congr fun k _ => by simp [eq_comm])
    · -- Without a child that is the node nothing is taken away.
      have herase : s.root.erase c = s.root := by
        refine s.root.erase_eq_self fun k hk heq => ?_
        have hthere := hfound.mpr ⟨k, hk, heq.symm⟩
        cases hthere.symm.trans hnot
      show { s with root := s.root.erase c } = s
      rw [herase]

/-- The first of two children is taken away all the same, and `NotFound` is returned. -/
theorem remove_impl_first :
    let s := { emptyState with root := (emptyState.root.add ['a'] .file).add ['b'] .file }
    (outcome (removeNode (.obj (.entry 0))) s = .ok false ∧
      (endState (removeNode (.obj (.entry 0))) s).root.children = [1]) ∧
      ¬ ReportsRemoval s (.obj (.entry 0)) := by
  refine ⟨⟨rfl, rfl⟩, ?_⟩
  rintro ⟨found, t, hrun, hfound, -, -⟩
  cases hrun
  exact absurd (hfound.mpr ⟨0, by decide, rfl⟩) (by decide)

end LudOS.Fs.DirectoryNames
