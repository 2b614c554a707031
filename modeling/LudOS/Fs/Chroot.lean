import LudOS.Fs.Descriptor
import LudOS.Fs.DotEntries

/-!
# The root directory of a process

The model of `sys_chroot` and `sys_open`. Every lookup of a process starts at its root or below it,
and the targets of links are looked up from its root as well. That confines every directory a lookup
goes through to what is below the root. What a lookup returns is not resolved, though: the last
component may be an entry `..`, whose target the node itself finds later from `vfs::root`.

`Inner` are the directories below the root other than the root itself, to which a lookup is confined
once it has taken a component. So only the path `..`, from the root directory itself, leads out.
-/

namespace LudOS.Fs

open Lib

/-! ## System calls -/

/-- `O_APPEND`. -/
def oAppend : UInt32 := 0x0008

/-- `O_CREAT`. -/
def oCreat : UInt32 := 0x0200

/-- `O_TRUNC`. -/
def oTrunc : UInt32 := 0x0400

/-- `O_EXCL`. -/
def oExcl : UInt32 := 0x0800

/-- `O_DIRECTORY`. -/
def oDirectory : UInt32 := 0x10000

/-- The flags open a descriptor for reading: `O_RDONLY` or `O_RDWR`. -/
def opensRead (flags : UInt32) : Bool := flags &&& 3 = 0 ∨ flags &&& 3 = 2

/-- The flags open a descriptor for writing: `O_WRONLY` or `O_RDWR`. -/
def opensWrite (flags : UInt32) : Bool := flags &&& 3 = 1 ∨ flags &&& 3 = 2

/-- The node of a descriptor: the one that was looked up, or the pipe that `open_fifo` keeps for
it. -/
inductive OpenNode where
  | node (h : Handle)
  | pipe (fifo : Handle)
  deriving DecidableEq, Repr

/-- The node of the tree that the descriptor was opened on. -/
def OpenNode.handle : OpenNode → Handle
  | .node h => h
  | .pipe fifo => fifo

/-- Give up with an error code. -/
def refuse (c : Prop) [Decidable c] (error : Errno) : Except LookupError Unit :=
  if c then .error (.errno error) else .ok ()

namespace Vfs

variable (v : Vfs) (p : ProcessData) (fuel : Nat)

/-- A call of `node::type`. -/
def askType (l : Handle) : Except LookupError NodeType :=
  match v.typeOf fuel l with
  | none => .error .crash
  | some type => .ok type

/-- The check for `O_DIRECTORY`. -/
def requireDirectory (l : Handle) (flags : UInt32) : Except LookupError Unit :=
  if flags &&& oDirectory ≠ 0 then do
    let type ← v.askType fuel l
    refuse (type ≠ .directory) .enotdir
  else .ok ()

/-- `sys_open` from the node that was looked up to the new descriptor. -/
def openInfo (l : Handle) (flags : UInt32) : Except LookupError (FDInfo OpenNode) := do
  refuse (flags &&& oTrunc ≠ 0) .enosys
  refuse (flags &&& oCreat ≠ 0) .enosys
  refuse (flags &&& oExcl ≠ 0) .eexist
  v.requireDirectory fuel l flags
  refuse (opensRead flags = true ∧ p.mayAccess (v.stat l) readRequest = false) .eacces
  refuse (opensWrite flags = true ∧ p.mayAccess (v.stat l) writeRequest = false) .eacces
  let type ← v.askType fuel l
  pure {
    node := if type = .fifo then .pipe l else .node l
    read := opensRead flags
    write := opensWrite flags
    append := flags &&& oAppend ≠ 0 }

/-- `sys_open`; `none` is a path that is not at a user address. -/
def sysOpen (path : Option Str) (flags : UInt32) : EStateM Fault (FdTable OpenNode) Int :=
  match path with
  | none => pure (-Errno.efault.code)
  | some path =>
    match v.userFind p fuel path >>= fun l => v.openInfo p fuel l flags with
    | .error (.errno error) => pure (-error.code)
    | .error .crash => throw .invalidPointer
    | .ok info => modifyGet fun table => (((addFd table info).1 : Int), (addFd table info).2)

/-- `sys_chroot`. -/
def sysChroot (path : Option Str) : EStateM Fault ProcessData Int := do
  let p ← get
  match path with
  | none => pure (-Errno.efault.code)
  | some path =>
    match v.userFind p fuel path >>= fun l => do
        let type ← v.askType fuel l
        refuse (type ≠ .directory) .enotdir
        pure l with
    | .error (.errno error) => pure (-error.code)
    | .error .crash => throw .invalidPointer
    | .ok l => do
      set { p with root := l }
      pure 0

/-! ## Nodes below the root -/

variable {v p fuel}

section

variable {q n m : Nat} {d : Str}

namespace IsTree

variable (h : IsTree v)

include h

theorem depth_lt_child (hn : Shown v v.root n) (hc : m ∈ v.listing n) : v.depth n < v.depth m := by
  have hhost : v.depth n ≤ v.depth (v.host n) := by
    unfold host
    cases hm : (v.node n).mounted with
    | none => exact Nat.le_refl _
    | some k => exact (v.depth_parent k n (h.mounted n k hn hm).parent).le
  exact Nat.lt_of_le_of_lt hhost (v.depth_parent m _ (h.parent n m hn hc))

variable (hq : Shown v v.root q) (hn : Shown v q n)

include hq hn

theorem depth_le : v.depth q ≤ v.depth n := by
  induction hn with
  | root => exact Nat.le_refl _
  | @child k c hk hc ih => exact ih.trans (h.depth_lt_child (hk.trans hq) hc).le

/-- What lies below `q` does not show `q`. -/
theorem not_mem_listing : q ∉ v.listing n := by
  intro hmem
  have hlt := h.depth_lt_child (hn.trans hq) hmem
  have hle := h.depth_le hq hn
  omega

/-- Only `..` at `q` leads out of what is below `q`. -/
theorem next_shown_iff (hm : Next v n d m) : Shown v q m ↔ ¬ (d = dotDot ∧ n = q) := by
  constructor
  · rintro hshown ⟨rfl, rfl⟩
    rcases h.next_cases hq hm with ⟨hname, -⟩ | ⟨hdot, -⟩ | ⟨-, hk, hmem⟩
    · exact hname.2 rfl
    · cases hdot
    · exact h.not_mem_listing hq hshown hmem
  · intro hout
    rcases h.next_cases (hn.trans hq) hm with ⟨-, hc, -⟩ | ⟨-, rfl⟩ | ⟨rfl, hk, hmem⟩
    · exact .child hn hc
    · exact hn
    · cases hn with
      | root => exact absurd ⟨rfl, rfl⟩ hout
      | @child k _ hk' hn =>
        rw [h.shower_unique hk (hk'.trans hq) hmem hn]
        exact hk'

/-- Away from the root of the tree the path of a legible node has a component. -/
theorem position_ne_nil (hlegible : Legible v n) (hne : q ≠ v.root) : v.position n ≠ [] := by
  cases hlegible with
  | root =>
    cases hn with
    | root => exact absurd rfl hne
    | child hk hc => exact absurd hc (h.root_not_mem (hk.trans hq))
  | @child k _ hk hc hnul =>
    rw [h.position_child hk.shown hc hnul]
    simp

end IsTree

/-- A component without zero characters leads from legible nodes to legible nodes. -/
theorem Next.legible (h : IsTree v) (hm : Next v n d m) (hn : Legible v n) (hd : nul ∉ d) :
    Legible v m := by
  rcases h.next_cases hn.shown hm with ⟨-, hc, hname⟩ | ⟨-, rfl⟩ | ⟨-, hk, hmem⟩
  · exact .child hn hc (hname ▸ hd)
  · exact hn
  · exact h.legible_shower hn hk hmem

end

/-! ## Handles of a lookup

Names with zero characters take part in `Inner`, `Rooted` and what follows from them only where
`clean` does not hold. -/

/-- Below `q`. With clean names, the node is legible and it is not `q` itself, unless `q` is the
root of the tree. -/
def Inner (v : Vfs) (clean : Prop) (q n : Nat) : Prop :=
  Shown v q n ∧ (clean → Legible v n ∧ (q ≠ v.root → n ≠ q))

/-- A pointer that stands for `n`: the node itself, or an entry `.` or `..` that leads to it and
whose target is not cut off. This is what a lookup returns. -/
def Stands (v : Vfs) (l : Handle) (n : Nat) : Prop :=
  l = .node n ∨ (Legible v n ∧ ∃ dir d, Shown v v.root dir ∧ (v.node dir).type = .directory ∧
    ¬ IsName d ∧ Next v dir d n ∧ l = v.entry dir d n)

/-- The process has the root directory `r` and the working directory `pwd`, both below `q`. -/
structure Housed (v : Vfs) (p : ProcessData) (q r pwd : Nat) : Prop where
  top_shown : Shown v v.root q
  root_shown : Shown v q r
  root_directory : (v.node r).type = .directory
  root_stands : Stands v p.root r
  pwd_shown : Shown v q pwd
  pwd_directory : (v.node pwd).type = .directory
  pwd_stands : Stands v p.pwd pwd

/-- The process has been given the root directory `r` and works below it. -/
abbrev Chrooted (v : Vfs) (p : ProcessData) (r pwd : Nat) : Prop := Housed v p r r pwd

section

variable {clean : Prop} {q r n m pwd left : Nat} {d : Str} {ds : List Str} {s s' : Handle × Str}
  {l : Handle} {lookup : Str → Except LookupError Handle} {flags : UInt32}

theorem IsTree.inner_child (h : IsTree v) (hq : Shown v v.root q) (hn : Shown v q n)
    (hc : m ∈ v.listing n) (hlegible : clean → Legible v m) : Inner v clean q m :=
  ⟨.child hn hc, fun hclean => ⟨hlegible hclean, fun _ heq => h.not_mem_listing hq hn (heq ▸ hc)⟩⟩

/-- The methods of the pointer act on the node. -/
theorem Stands.actsOn (h : IsTree v) (hl : Stands v l n) (hn : Shown v v.root n) (fuel : Nat) :
    v.actsOn (fuel + 1) l = some n := by
  have hplain := kind_node (h.plain n hn)
  rcases hl with rfl | ⟨hlegible, dir, d, hdir, htype, hd, hnext, rfl⟩
  · exact actsOn_plain hplain _
  · rcases @IsTree.denotes_entry v fuel dir n d h hdir htype hnext (fun _ => hlegible) with
      hnode | ⟨k, target, name, hlink, -, hfind⟩
    · rw [hnode]
      exact actsOn_plain hplain _
    · rw [hlink, Vfs.actsOn]
      simp only [kind]
      rw [show v.findWith (v.actsOn fuel) target = .ok (.node n) from hfind]
      exact actsOn_plain hplain _

/-- A node below `q`, or an entry `.` or `..` of a directory below `q`. -/
def Entered (v : Vfs) (clean : Prop) (q : Nat) (l : Handle) : Prop :=
  (∃ n, l = .node n ∧ Shown v q n ∧ (clean → Legible v n)) ∨
    ∃ dir d m, Shown v q dir ∧ (v.node dir).type = .directory ∧ ¬ IsName d ∧ Next v dir d m ∧
      l = v.entry dir d m

theorem Stands.entered (h : IsTree v) (hl : Stands v l n) (hn : Shown v q n)
    (hlegible : clean → Legible v n) : Entered v clean q l := by
  rcases hl with rfl | ⟨-, dir, d, hdir, htype, hd, hnext, rfl⟩
  · exact .inl ⟨n, rfl, hn, hlegible⟩
  · refine .inr ⟨dir, d, n, ?_, htype, hd, hnext, rfl⟩
    rcases h.next_cases hdir hnext with ⟨hname, -⟩ | ⟨-, rfl⟩ | ⟨-, -, hmem⟩
    · exact absurd hname hd
    · exact hn
    · exact .child hn hmem

/-- A string that starts and ends with a slash, and with clean names has a component if `q` is not
the root of the tree. -/
structure Rooted (v : Vfs) (clean : Prop) (q : Nat) (s : Str) : Prop extends Framed s where
  component : clean → q ≠ v.root → pathList s ≠ []

theorem Rooted.append {s t : Str} (hs : Framed s) (ht : Framed t)
    (hne : clean → q ≠ v.root → pathList s ≠ [] ∨ pathList t ≠ []) :
    Rooted v clean q (s ++ t) := by
  refine ⟨hs.append ht, fun hclean hq hnil => ?_⟩
  rw [hs.pathList_append] at hnil
  obtain ⟨hs', ht'⟩ := List.append_eq_nil_iff.mp hnil
  rcases hne hclean hq with hne | hne
  · exact hne hs'
  · exact hne ht'

theorem Rooted.snoc {s : Str} (hs : Rooted v clean q s) (name : Str) :
    Rooted v clean q (s ++ cStr name ++ ['/']) := by
  refine ⟨hs.toFramed.snoc name, fun hclean hq hnil => hs.component hclean hq ?_⟩
  rw [List.append_assoc, hs.toFramed.pathList_append] at hnil
  exact (List.append_eq_nil_iff.mp hnil).1

/-- The lookup of such a string ends at a node below `q`. -/
def Confines (v : Vfs) (clean : Prop) (q : Nat) (lookup : Str → Except LookupError Handle) : Prop :=
  ∀ path l, Rooted v clean q path → lookup path = .ok l → ∃ n, l = .node n ∧ Inner v clean q n

namespace Confines

variable (h : IsTree v) (hq : Shown v v.root q) (hlookup : Confines v clean q lookup)

include h hq hlookup

/-- A link is resolved to a node below `q`. -/
theorem resolveSymlink {pwd target : Str} (hkind : v.kind l = .link target)
    (hpwd : Framed pwd) (htarget : Framed target) (hrooted : Rooted v clean q (pwd ++ target))
    {rounds : Nat} (hrun : v.resolveSymlink lookup pwd (rounds + 1) l = .ok n) :
    Inner v clean q n := by
  rw [resolveSymlink_link hkind, hpwd.concat_eq htarget] at hrun
  obtain ⟨l', hl', hrest⟩ := except_bind_eq_ok.mp hrun
  obtain ⟨m, rfl, hinner⟩ := hlookup _ _ hrooted hl'
  rw [resolveSymlink_plain (kind_node (h.plain m (hinner.1.trans hq)))] at hrest
  cases hrest
  exact hinner

/-- The same for the pointers that a walk meets. -/
theorem resolve_entered (hl : Entered v clean q l) {pwd : Str} (hpwd : Rooted v clean q pwd)
    (hrun : v.resolveSymlink lookup pwd maxSymlinkLoop l = .ok n) :
    (l = .node n ∧ Shown v q n ∧ (clean → Legible v n)) ∨ Inner v clean q n := by
  rcases hl with ⟨m, rfl, hm⟩ | ⟨dir, d, m, hdir, htype, hd, hnext, rfl⟩
  · rw [resolveSymlink_plain (kind_node (h.plain m (hm.1.trans hq)))] at hrun
    cases hrun
    exact .inl ⟨rfl, hm⟩
  · rcases h.entry_kind (hdir.trans hq) htype hnext with ⟨hname, -⟩ | ⟨target, hkind, hframed, -⟩
    · exact absurd hname hd
    · have hrooted : Rooted v clean q (pwd ++ target) :=
        .append hpwd.toFramed hframed fun hclean hne => .inl (hpwd.component hclean hne)
      exact .inr (hlookup.resolveSymlink h hq hkind hpwd.toFramed hframed hrooted hrun)

end Confines

/-- The last round of a walk along `ds`, which has found the entry `d` of the directory `n`. The
directory is below `q`, and with clean names it is `q` only if the walk has started there with this
round. -/
structure LastRound (v : Vfs) (clean : Prop) (p : ProcessData) (q : Nat) (start : Handle)
    (ds : List Str) (s' : Handle × Str) (n m : Nat) (d pwd : Str) : Prop where
  last : ds.getLast? = some d
  shown : Shown v q n
  legible : clean → Legible v n
  inner : (ds = [d] ∧ start = .node n) ∨ Inner v clean q n
  directory : (v.node n).type = .directory
  allowed : p.mayAccess (v.node n).stat (readRequest ||| execRequest) = true
  next : Next v n d m
  rooted : Rooted v clean q pwd
  result : s' = (v.entry n d m, pwd ++ cStr (v.node n).name ++ ['/'])

/-- One round. -/
theorem Confines.userStep (h : IsTree v) (hq : Shown v v.root q)
    (hlookup : Confines v clean q lookup) (hs : Entered v clean q s.1)
    (hpwd : Rooted v clean q s.2) (hrun : v.userStep p fuel lookup s d = .ok s') :
    ∃ n m, LastRound v clean p q s.1 [d] s' n m d s.2 := by
  obtain ⟨n, hresolve, hrest⟩ := except_bind_eq_ok.mp hrun
  have hn := hlookup.resolve_entered h hq hs hpwd hresolve
  have hshown : Shown v q n ∧ (clean → Legible v n) := by
    rcases hn with ⟨-, hn⟩ | hn
    · exact hn
    · exact ⟨hn.1, fun hclean => (hn.2 hclean).1⟩
  obtain ⟨htype, hperm, m, hm, rfl⟩ := (h.userStep_eq_ok s hresolve (hshown.1.trans hq)).mp hrun
  exact ⟨n, m, rfl, hshown.1, hshown.2, hn.imp_left fun hstart => ⟨rfl, hstart.1⟩, htype, hperm, hm,
    hpwd, rfl⟩

theorem not_isName_iff : ¬ IsName d ↔ d = dot ∨ d = dotDot := by
  unfold IsName
  rw [not_and_or, Decidable.not_not, Decidable.not_not]

/-- The entries `.` and `..` are links of the directory. -/
theorem exists_entry_link (hd : ¬ IsName d) :
    ∃ target, v.entry n d m = .link (.node n) target d := by
  rcases not_isName_iff.mp hd with rfl | rfl
  · exact ⟨_, rfl⟩
  · exact ⟨_, rfl⟩

theorem entry_ne_node (hd : ¬ IsName d) (k : Nat) : v.entry n d m ≠ .node k := by
  obtain ⟨target, hentry⟩ := @exists_entry_link v n m d hd
  rw [hentry]
  rintro ⟨⟩

namespace LastRound

variable {pwd : Str} (hround : LastRound v clean p q l ds s' n m d pwd) (h : IsTree v)
  (hq : Shown v v.root q)

include hround h hq

/-- The entry that has been found is a node below the directory, or one of the two links. -/
theorem cases (hd : clean → nul ∉ d) :
    (s'.1 = .node m ∧ Inner v clean q m) ∨ (¬ IsName d ∧ ∀ k, s'.1 ≠ .node k) := by
  rw [hround.result]
  rcases h.next_cases (hround.shown.trans hq) hround.next with ⟨hname, hc, -⟩ | ⟨rfl, -⟩ | ⟨rfl, -⟩
  · refine .inl ⟨entry_child hname, h.inner_child hq hround.shown hc fun hclean => ?_⟩
    exact hround.next.legible h (hround.legible hclean) (hd hclean)
  · have hd : ¬ IsName dot := by decide
    exact .inr ⟨hd, @entry_ne_node v n m dot hd⟩
  · have hd : ¬ IsName dotDot := by decide
    exact .inr ⟨hd, @entry_ne_node v n m dotDot hd⟩

/-- A round leaves a pointer below `q`. -/
theorem entered (hd : clean → nul ∉ d) : Entered v clean q s'.1 := by
  rcases hround.cases h hq hd with ⟨hnode, hinner⟩ | ⟨hd, -⟩
  · exact .inl ⟨m, hnode, hinner.1, fun hclean => (hinner.2 hclean).1⟩
  · refine .inr ⟨n, d, m, hround.shown, hround.directory, hd, hround.next, ?_⟩
    rw [hround.result]

/-- If the pointer is a node, that is below `q`. -/
theorem inner_of_node (hd : clean → nul ∉ d) {k : Nat} (hk : s'.1 = .node k) :
    Inner v clean q k := by
  rcases hround.cases h hq hd with ⟨hnode, hinner⟩ | ⟨-, hlink⟩
  · cases hnode.symm.trans hk
    exact hinner
  · exact absurd hk (hlink k)

/-- With clean names the pointer stands for the node that the component leads to. -/
theorem stands (hclean : clean) (hd : clean → nul ∉ d) : Stands v s'.1 m := by
  rw [hround.result]
  by_cases hname : IsName d
  · exact .inl (entry_child hname)
  · exact .inr ⟨hround.next.legible h (hround.legible hclean) (hd hclean), n, d,
      hround.shown.trans hq, hround.directory, hname, hround.next, rfl⟩

end LastRound

section

variable (h : IsTree v) (hq : Shown v v.root q)

include h hq

/-- A whole walk. -/
theorem Confines.foldlM (hlookup : Confines v clean q lookup)
    (hs : Entered v clean q s.1) (hpwd : Rooted v clean q s.2)
    (hds : clean → ∀ d ∈ ds, nul ∉ d)
    (hrun : ds.foldlM (v.userStep p fuel lookup) s = .ok s') :
    (ds = [] ∧ s' = s) ∨ ∃ n m d pwd, LastRound v clean p q s.1 ds s' n m d pwd := by
  induction ds generalizing s with
  | nil =>
    cases hrun
    exact .inl ⟨rfl, rfl⟩
  | cons d ds ih =>
    obtain ⟨t, hstep, hrest⟩ := except_bind_eq_ok.mp hrun
    obtain ⟨n, m, hround⟩ := hlookup.userStep h hq hs hpwd hstep
    have hd : clean → nul ∉ d := fun hclean => hds hclean d List.mem_cons_self
    have hpwd' : Rooted v clean q t.2 := by
      rw [hround.result]
      exact hpwd.snoc _
    rcases ih (hround.entered h hq hd) hpwd'
        (fun hclean d' hd' => hds hclean d' (List.mem_cons_of_mem d hd')) hrest with
      ⟨rfl, rfl⟩ | ⟨n', m', d', pwd, hlast⟩
    · exact .inr ⟨n, m, d, s.2, hround⟩
    · -- From the second round on the directory cannot be `q` any more.
      have hinner : Inner v clean q n' := by
        rcases hlast.inner with ⟨-, hstart⟩ | hinner
        · exact hround.inner_of_node h hq hd hstart
        · exact hinner
      refine .inr ⟨n', m', d', pwd, { hlast with last := ?_, inner := .inr hinner }⟩
      rw [List.getLast?_cons, hlast.last]
      rfl

/-- The end of a lookup after a walk, for a path with a slash at its end. -/
theorem Confines.userEnd (hlookup : Confines v clean q lookup)
    {start : Handle} {pwd : Str} (hround : LastRound v clean p q start ds s n m d pwd)
    (hd : clean → nul ∉ d) (hrun : v.userEnd lookup true s = .ok l) :
    ∃ k, l = .node k ∧ Inner v clean q k := by
  have hrooted : Rooted v clean q (parentPath s.2) := by
    have hslash := h.no_slash (hround.shown.trans hq)
    rw [hround.result]
    refine ⟨?_, fun hclean hne => ?_⟩
    · rw [List.append_assoc]
      exact hround.rooted.toFramed.parentPath (nul_not_mem_snoc _)
    · rw [hround.rooted.toFramed.pathList_parentPath hslash]
      exact hround.rooted.component hclean hne
  obtain ⟨k, hresolve, hrest⟩ := except_bind_eq_ok.mp hrun
  have hinner : Inner v clean q k := by
    rcases hlookup.resolve_entered h hq (hround.entered h hq hd) hrooted hresolve with
      ⟨hnode, -⟩ | hinner
    · exact hround.inner_of_node h hq hd hnode
    · exact hinner
  split at hrest
  · cases hrest
  · cases hrest
    exact ⟨k, rfl, hinner⟩

/-- The path of a pointer where a lookup starts. -/
theorem Stands.path (hl : Stands v l n) (hn : Shown v q n)
    (hdir : (v.node n).type = .directory) (hlegible : clean → Legible v n) (fuel : Nat) :
    ∃ pwd, v.path (fuel + 1) l = some pwd ∧ Rooted v clean q pwd ∧ Framed (parentPath pwd) := by
  have hacts := hl.actsOn h (hn.trans hq) fuel
  rcases hl with rfl | ⟨-, dir, d, hdir', htype, hd, hnext, rfl⟩
  · have hframed := (h.framed_pathOf (hn.trans hq) hdir).1
    refine ⟨v.pathOf n, path_node (h.plain n (hn.trans hq)) _,
      ⟨hframed, fun hclean hne => h.position_ne_nil hq hn (hlegible hclean) hne⟩, ?_⟩
    rw [← List.append_nil (v.pathOf n)]
    exact hframed.parentPath List.not_mem_nil
  · have hframed := (h.framed_pathOf hdir' htype).1
    have hdot : cStr d = d := by
      rcases not_isName_iff.mp hd with rfl | rfl <;> decide
    obtain ⟨target, hentry⟩ := @exists_entry_link v dir n d hd
    refine ⟨v.pathOf dir ++ cStr d ++ ['/'], ?_, ?_, ?_⟩
    · have hstr : concat (concat (v.pathOf dir) d) ['/'] = v.pathOf dir ++ cStr d ++ ['/'] := by
        rw [concat_of_not_mem (nul_not_mem_concat _ _) (by decide), concat_eq,
          cStr_eq_self hframed.no_nul]
      rw [hentry] at hacts ⊢
      unfold Vfs.path
      rw [pathWith, typeWith, hacts, pathWith_node (h.plain dir hdir'), ← hstr]
      simp [suffix, hdir]
    · refine ⟨hframed.snoc d, fun _ _ hnil => ?_⟩
      rw [List.append_assoc, hframed.pathList_append, hdot] at hnil
      have hname := (List.append_eq_nil_iff.mp hnil).2
      rcases not_isName_iff.mp hd with rfl | rfl
      · exact absurd hname (by decide)
      · exact absurd hname (by decide)
    · rw [List.append_assoc]
      exact hframed.parentPath (nul_not_mem_snoc _)

/-- The end of a lookup that has taken no component. -/
theorem Confines.userEnd_start (hlookup : Confines v clean q lookup) (hl : Stands v l n)
    (hn : Shown v q n) (hlegible : clean → Legible v n) {pwd : Str}
    (hpwd : Framed (parentPath pwd)) {l' : Handle}
    (hrun : v.userEnd lookup true (l, pwd) = .ok l') :
    ∃ k, l' = .node k ∧ Shown v q k ∧ (clean → Legible v k) := by
  obtain ⟨k, hresolve, hrest⟩ := except_bind_eq_ok.mp hrun
  have hshown : Shown v q k ∧ (clean → Legible v k) := by
    rcases hl with rfl | ⟨hlegible', dir, d, hdir, htype, hd, hnext, rfl⟩
    · rw [resolveSymlink_plain (kind_node (h.plain n (hn.trans hq)))] at hresolve
      cases hresolve
      exact ⟨hn, hlegible⟩
    · rcases h.entry_kind hdir htype hnext with ⟨hname, -⟩ | ⟨target, hkind, hframed, hposition⟩
      · exact absurd hname hd
      · have hrooted : Rooted v clean q (parentPath pwd ++ target) :=
          .append hpwd hframed fun _ hne =>
            .inr (hposition ▸ h.position_ne_nil hq hn hlegible' hne)
        have hinner := hlookup.resolveSymlink h hq hkind hpwd hframed hrooted hresolve
        exact ⟨hinner.1, fun hclean => (hinner.2 hclean).1⟩
  split at hrest
  · cases hrest
  · cases hrest
    exact ⟨k, rfl, hshown⟩

end

/-- The components of a string without zero characters have none. -/
theorem nul_not_mem_component {path : Str} (hpath : nul ∉ path) : ∀ d ∈ pathList path, nul ∉ d :=
  fun _ hd => nul_not_mem_piece hpath (List.mem_filter.mp hd).1

/-- Every lookup of a process confines the links that are resolved by it. -/
theorem Housed.confines (hp : Housed v p q r pwd) (h : IsTree v) (hlegible : clean → Legible v r)
    (fuel left : Nat) : Confines v clean q (v.userFindImpl p (fuel + 1) left) := by
  have hq := hp.top_shown
  induction left with
  | zero =>
    intro path l _ hrun
    cases hrun
  | succ left ih =>
    intro path l hpath hrun
    have hstart : startOf p path = p.root := by simp [startOf, hpath.head]
    obtain ⟨str, hstr, hrooted, hparent⟩ :=
      hp.root_stands.path h hq hp.root_shown hp.root_directory hlegible fuel
    have hds := nul_not_mem_component hpath.toFramed.no_nul
    rw [userFindImpl, if_neg hpath.toFramed.ne_nil, hstart, hpath.toFramed.isDirPath] at hrun
    obtain ⟨s, hwalk, hend⟩ := except_bind_eq_ok.mp hrun
    rw [userWalk, hstr] at hwalk
    rcases ih.foldlM h hq (hp.root_stands.entered h hp.root_shown hlegible) hrooted (fun _ => hds)
        hwalk with
      ⟨hnil, rfl⟩ | ⟨n, m, d, pwd', hround⟩
    · -- With clean names a string without a component occurs only at the root of the tree.
      obtain ⟨k, rfl, hk, hk'⟩ :=
        ih.userEnd_start h hq hp.root_stands hp.root_shown hlegible hparent hend
      exact ⟨k, rfl, hk, fun hclean =>
        ⟨hk' hclean, fun hne => absurd hnil (hpath.component hclean hne)⟩⟩
    · have hd := hds d (List.mem_of_getLast? hround.last)
      exact ih.userEnd h hq hround (fun _ => hd) hend

theorem Housed.start (hp : Housed v p q r pwd) (path : Str) :
    Stands v (startOf p path) (startNode r pwd path) ∧ Shown v q (startNode r pwd path) ∧
      (v.node (startNode r pwd path)).type = .directory := by
  unfold startOf Vfs.startNode
  split
  · exact ⟨hp.pwd_stands, hp.pwd_shown, hp.pwd_directory⟩
  · exact ⟨hp.root_stands, hp.root_shown, hp.root_directory⟩

variable {path : Str}

/-- The root, the start and the path of a lookup have no zero character where names are clean. -/
structure CleanStart (v : Vfs) (clean : Prop) (r pwd : Nat) (path : Str) : Prop where
  root : clean → Legible v r
  start : clean → Legible v (startNode r pwd path)
  path : clean → nul ∉ path

namespace Housed

variable (hp : Housed v p q r pwd) (h : IsTree v) (hclean : CleanStart v clean r pwd path)
  (hrun : v.userFind p (fuel + 1) path = .ok l)

include hp h hclean hrun

/-- What `user_find` returns: a node below `q`, or the entry that the last component has found in a
directory below `q`. -/
theorem userFind_cases : (∃ k, Stands v l k ∧ Shown v q k ∧ (clean → Legible v k)) ∨
      (isDirPath path = false ∧ ∃ n m d pwd' s,
        LastRound v clean p q (startOf p path) (pathList path) s n m d pwd' ∧ l = s.1) := by
  have hq := hp.top_shown
  obtain ⟨hstands, hshown, hdir⟩ := hp.start path
  have hlookup := hp.confines h hclean.root fuel 39
  obtain ⟨str, hstr, hrooted, hparent⟩ := hstands.path h hq hshown hdir hclean.start fuel
  have hds : clean → ∀ d ∈ pathList path, nul ∉ d :=
    fun hc => nul_not_mem_component (hclean.path hc)
  rw [userFind, maxSymlinkLoop, userFindImpl] at hrun
  split at hrun
  · cases hrun
  obtain ⟨s, hwalk, hend⟩ := except_bind_eq_ok.mp hrun
  rw [userWalk, hstr] at hwalk
  rcases hlookup.foldlM h hq (hstands.entered h hshown hclean.start) hrooted hds hwalk with
    ⟨-, rfl⟩ | ⟨n, m, d, pwd', hround⟩
  · cases hisDir : isDirPath path with
    | false =>
      rw [hisDir] at hend
      cases hend
      exact .inl ⟨_, hstands, hshown, hclean.start⟩
    | true =>
      rw [hisDir] at hend
      obtain ⟨k, rfl, hk⟩ := hlookup.userEnd_start h hq hstands hshown hclean.start hparent hend
      exact .inl ⟨k, .inl rfl, hk⟩
  · cases hisDir : isDirPath path with
    | false =>
      rw [hisDir] at hend
      cases hend
      exact .inr ⟨rfl, n, m, d, pwd', s, hround, rfl⟩
    | true =>
      rw [hisDir] at hend
      obtain ⟨k, rfl, hk⟩ := hlookup.userEnd h hq hround
        (fun hc => hds hc d (List.mem_of_getLast? hround.last)) hend
      exact .inl ⟨k, .inl rfl, hk.1, fun hc => (hk.2 hc).1⟩

/-! ## Descriptors -/

/-- With clean names the result stands for a legible node of the tree. -/
theorem userFind_stands (hc : clean) : ∃ k, Stands v l k ∧ Legible v k := by
  rcases hp.userFind_cases h hclean hrun with
    ⟨k, hstands, -, hk⟩ | ⟨-, n, m, d, pwd', s, hround, rfl⟩
  · exact ⟨k, hstands, hk hc⟩
  · have hd : nul ∉ d :=
      nul_not_mem_component (hclean.path hc) d (List.mem_of_getLast? hround.last)
    exact ⟨m, hround.stands h hp.top_shown hc fun _ => hd,
      hround.next.legible h (hround.legible hc) hd⟩

end Housed

theorem neg_code_lt (error : Errno) : -error.code < 0 := by
  cases error <;> decide

theorem refuse_eq_ok {c : Prop} [Decidable c] {error : Errno} : refuse c error = .ok () ↔ ¬ c := by
  unfold refuse
  split <;> simp [*]

/-- No flag makes `sys_open` give up. -/
def Plain (flags : UInt32) : Prop :=
  flags &&& oTrunc = 0 ∧ flags &&& oCreat = 0 ∧ flags &&& oExcl = 0

/-- A descriptor is for the node that was looked up. -/
theorem openInfo_eq_ok {info : FDInfo OpenNode}
    (hrun : v.openInfo p fuel l flags = .ok info) : Plain flags ∧ info.node.handle = l := by
  obtain ⟨⟨⟩, htrunc, hrun⟩ := except_bind_eq_ok.mp hrun
  obtain ⟨⟨⟩, hcreat, hrun⟩ := except_bind_eq_ok.mp hrun
  obtain ⟨⟨⟩, hexcl, hrun⟩ := except_bind_eq_ok.mp hrun
  obtain ⟨_, -, hrun⟩ := except_bind_eq_ok.mp hrun
  obtain ⟨_, -, hrun⟩ := except_bind_eq_ok.mp hrun
  obtain ⟨_, -, hrun⟩ := except_bind_eq_ok.mp hrun
  obtain ⟨type, -, hrun⟩ := except_bind_eq_ok.mp hrun
  rw [refuse_eq_ok, not_not] at htrunc hcreat hexcl
  cases hrun
  refine ⟨⟨htrunc, hcreat, hexcl⟩, ?_⟩
  split
  · rfl
  · rfl

/-- Everybody may read and write the links that `readdir` creates. -/
theorem mayAccess_mkstat (p : ProcessData) {type : UInt16}
    (htype : type = readRequest ∨ type = writeRequest) : p.mayAccess mkstat type = true := by
  unfold ProcessData.mayAccess ProcessData.checkPerms
  split
  · rfl
  · rcases htype with rfl | rfl
    · exact decide_eq_true (.inr (.inr (by decide)))
    · exact decide_eq_true (.inr (.inr (by decide)))

/-- A link to a directory can be opened. -/
theorem exists_openInfo {flags : UInt32} (hflags : Plain flags) (hstat : v.stat l = mkstat)
    (htype : v.typeOf fuel l = some .directory) :
    ∃ info, v.openInfo p fuel l flags = .ok info ∧ info.node.handle = l := by
  have hask : v.askType fuel l = .ok .directory := by
    unfold askType
    rw [htype]
  have hdir : v.requireDirectory fuel l flags = .ok () := by
    unfold requireDirectory
    rw [hask]
    split
    · rfl
    · rfl
  have hread : refuse (opensRead flags = true ∧ p.mayAccess (v.stat l) readRequest = false) .eacces
      = .ok () := refuse_eq_ok.mpr fun hr => by
    rw [hstat, mayAccess_mkstat p (.inl rfl)] at hr
    cases hr.2
  have hwrite : refuse (opensWrite flags = true ∧ p.mayAccess (v.stat l) writeRequest = false)
      .eacces = .ok () := refuse_eq_ok.mpr fun hw => by
    rw [hstat, mayAccess_mkstat p (.inr rfl)] at hw
    cases hw.2
  refine ⟨⟨.node l, opensRead flags, opensWrite flags, flags &&& oAppend ≠ 0, 0⟩, ?_, rfl⟩
  unfold openInfo
  rw [refuse_eq_ok.mpr (not_not.mpr hflags.1), refuse_eq_ok.mpr (not_not.mpr hflags.2.1),
    refuse_eq_ok.mpr (not_not.mpr hflags.2.2), hdir, hread, hwrite, hask]
  rfl

/-- `sys_chroot` leaves a process with a root that stands for a directory of the tree, and does not
move its working directory. -/
theorem Housed.sysChroot (h : IsTree v) (hp : Housed v p v.root r pwd) (hr : Legible v r)
    (hpwd : Legible v pwd) {path : Option Str} (hpath : ∀ str ∈ path, nul ∉ str) {code : Int}
    {p' : ProcessData} (hrun : (v.sysChroot (fuel + 1) path).run p = .ok code p') :
    ∃ r', Housed v p' v.root r' pwd ∧ Legible v r' ∧ p'.pwd = p.pwd := by
  unfold Vfs.sysChroot at hrun
  rw [run_get_bind] at hrun
  split at hrun
  case h_1 =>
    cases hrun
    exact ⟨r, hp, hr, rfl⟩
  case h_2 path =>
    split at hrun
    case h_1 error _ =>
      cases hrun
      exact ⟨r, hp, hr, rfl⟩
    case h_2 => cases hrun
    case h_3 l hl =>
      cases hrun
      obtain ⟨l', hfind, hl⟩ := except_bind_eq_ok.mp hl
      obtain ⟨type, hask, hl⟩ := except_bind_eq_ok.mp hl
      obtain ⟨⟨⟩, hdir, hl⟩ := except_bind_eq_ok.mp hl
      cases hl
      rw [refuse_eq_ok, not_not] at hdir
      have hstart : Legible v (startNode r pwd path) := by
        unfold startNode
        split
        · exact hpwd
        · exact hr
      have hclean : CleanStart v True r pwd path :=
        ⟨fun _ => hr, fun _ => hstart, fun _ => hpath path rfl⟩
      obtain ⟨k, hstands, hk⟩ := hp.userFind_stands h hclean hfind trivial
      unfold askType typeOf typeWith at hask
      rw [hstands.actsOn h hk.shown] at hask
      cases hask
      exact ⟨k, { hp with
        root_shown := hk.shown, root_directory := hdir, root_stands := hstands }, hk, rfl⟩

/-- After any number of `sys_chroot` calls the root of a process stands for a directory of the tree,
and its working directory has not moved. -/
theorem sysChroots_housed (h : IsTree v) (hp : Housed v p v.root r pwd) (hr : Legible v r)
    (hpwd : Legible v pwd) {paths : List (Option Str)}
    (hpaths : ∀ path ∈ paths, ∀ str ∈ path, nul ∉ str) {p' : ProcessData}
    (hrun : (each (fun path => do let _ ← v.sysChroot (fuel + 1) path) paths).run p = .ok () p') :
    ∃ r', Housed v p' v.root r' pwd ∧ Legible v r' ∧ p'.pwd = p.pwd := by
  induction paths generalizing p r with
  | nil =>
    cases hrun
    exact ⟨r, hp, hr, rfl⟩
  | cons path paths ih =>
    obtain ⟨⟨⟩, p₁, hfirst, hrest⟩ := run_bind_eq_ok.mp hrun
    obtain ⟨code, p₂, hcall, hpure⟩ := run_bind_eq_ok.mp hfirst
    cases hpure
    obtain ⟨r₁, hp₁, hr₁, hsame⟩ := hp.sysChroot h hr hpwd (hpaths path List.mem_cons_self) hcall
    obtain ⟨r', hp', hr', hsame'⟩ :=
      ih hp₁ hr₁ (fun path' hmem => hpaths path' (List.mem_cons_of_mem path hmem)) hrest
    exact ⟨r', hp', hr', hsame'.trans hsame⟩

/-- A call of `sys_open` that succeeds. -/
theorem run_sysOpen_eq_ok {table table' : FdTable OpenNode} {fd : Int} :
    (v.sysOpen p fuel (some path) flags).run table = .ok fd table' ∧ 0 ≤ fd ↔
      ∃ l info, v.userFind p fuel path = .ok l ∧ v.openInfo p fuel l flags = .ok info ∧
        fd = (addFd table info).1 ∧ table' = (addFd table info).2 := by
  unfold sysOpen
  dsimp only
  constructor
  · rintro ⟨hrun, hfd⟩
    split at hrun
    case h_1 error _ =>
      cases hrun
      exact absurd hfd (Int.not_le.mpr (neg_code_lt error))
    case h_2 => cases hrun
    case h_3 info hinfo =>
      cases hrun
      obtain ⟨l, hl, hinfo⟩ := except_bind_eq_ok.mp hinfo
      exact ⟨l, info, hl, hinfo, rfl, rfl⟩
  · rintro ⟨l, info, hl, hinfo, rfl, rfl⟩
    rw [hl]
    dsimp only [bind, Except.bind]
    rw [hinfo]
    exact ⟨rfl, Int.natCast_nonneg _⟩

/-- Whatever `sys_open` returns for the path, the descriptor's methods act on a node below `r`. -/
def Confined (v : Vfs) (p : ProcessData) (fuel r : Nat) (path : Str) (flags : UInt32)
    (table : FdTable OpenNode) : Prop :=
  ∀ fd table', (v.sysOpen p fuel (some path) flags).run table = .ok fd table' → 0 ≤ fd →
    ∃ info i, getFd table' fd.toNat = some info ∧ v.actsOn fuel info.node.handle = some i ∧
      Shown v r i

/-- The path is `..`, the lookup starts at the root directory of the process, which is not the root
of the tree, and nothing keeps the process from opening the entry. -/
structure Escapes (v : Vfs) (p : ProcessData) (r : Nat) (path : Str) (flags : UInt32) : Prop where
  path_eq : pathList path = [dotDot]
  no_slash : isDirPath path = false
  start : startOf p path = .node r
  moved : r ≠ v.root
  allowed : p.mayAccess (v.node r).stat (readRequest ||| execRequest) = true
  flags : Plain flags

/-- The lookup of `..` from a directory that is shown by `q`. -/
theorem Escapes.userFind (h : IsTree v)
    (hesc : Escapes v p r path flags) (hr : Shown v v.root r) (hdir : (v.node r).type = .directory)
    {q : Nat} (hq : Shown v v.root q) (hmem : r ∈ v.listing q) :
    v.userFind p fuel path = .ok (v.entry r dotDot q) := by
  have hne : path ≠ [] := by
    rintro rfl
    exact absurd hesc.path_eq (by decide)
  have hresolve := @resolveSymlink_plain v r (v.userFindImpl p fuel 39) (.node r)
    (kind_node (h.plain r hr)) (v.pathOf r) maxSymlinkLoop
  have hstep : v.userStep p fuel (v.userFindImpl p fuel 39) (.node r, v.pathOf r) dotDot = _ :=
    (h.userStep_eq_ok (.node r, v.pathOf r) hresolve hr).mpr
      ⟨hdir, hesc.allowed, q, .dotDot hq hmem, rfl⟩
  rw [Vfs.userFind, maxSymlinkLoop, userFindImpl, if_neg hne, hesc.start, hesc.path_eq,
    hesc.no_slash, userWalk, path_node (h.plain r hr)]
  dsimp only
  rw [List.foldlM_cons, hstep]
  rfl

/-- What is above a legible node is legible. -/
theorem IsTree.legible_above (h : IsTree v) (hq : Shown v v.root q) (hn : Shown v q n)
    (hlegible : Legible v n) : Legible v q := by
  induction hn with
  | root => exact hlegible
  | child hk hc ih => exact ih (h.legible_shower hlegible (hk.trans hq) hc)

theorem Housed.legible_root (h : IsTree v) (hp : Chrooted v p r pwd)
    (hlegible : Legible v (startNode r pwd path)) : Legible v r :=
  h.legible_above hp.top_shown (hp.start path).2.1 hlegible

/-- What the entry `..` stands for is opened. -/
theorem Escapes.not_confined (h : IsTree v) (hp : Chrooted v p r pwd)
    (hlegible : Legible v (startNode r pwd path)) {table : FdTable OpenNode}
    (hesc : Escapes v p r path flags) : ¬ Confined v p (fuel + 1) r path flags table := by
  intro hconfined
  have hr := hp.top_shown
  -- The node that shows `r`.
  obtain ⟨q, hq, hmem⟩ : ∃ q, Shown v v.root q ∧ r ∈ v.listing q := by
    cases hr with
    | root => exact absurd rfl hesc.moved
    | @child q _ hq hmem => exact ⟨q, hq, hmem⟩
  have hq' : Legible v q := h.legible_shower (hp.legible_root h hlegible) hq hmem
  have hacts : v.actsOn (fuel + 1) (v.entry r dotDot q) = some q :=
    Stands.actsOn h
      (.inr ⟨hq', r, dotDot, hr, hp.root_directory, by decide, .dotDot hq hmem, rfl⟩) hq fuel
  have htype : v.typeOf (fuel + 1) (v.entry r dotDot q) = some .directory := by
    unfold typeOf typeWith
    rw [hacts, Option.map_some, h.directory q r hq hmem]
  obtain ⟨info, hinfo, hhandle⟩ := @exists_openInfo v p (fuel + 1) _ _ hesc.flags rfl htype
  obtain ⟨hrun, hfd⟩ := run_sysOpen_eq_ok.mpr
    ⟨_, info, hesc.userFind h hr hp.root_directory hq hmem, hinfo, rfl, rfl⟩
  obtain ⟨info', i, hget, hacts', hshown⟩ := hconfined _ _ hrun hfd
  rw [Int.toNat_natCast, getFd_addFd] at hget
  cases hget
  rw [hhandle, hacts] at hacts'
  cases hacts'
  exact h.not_mem_listing hr hshown hmem

/-- Nothing else leads out. -/
theorem Housed.confined_of_not_escapes (h : IsTree v) (hp : Chrooted v p r pwd)
    (hlegible : Legible v (startNode r pwd path)) (hpath : nul ∉ path) {table : FdTable OpenNode}
    (hesc : ¬ Escapes v p r path flags) : Confined v p (fuel + 1) r path flags table := by
  have hr := hp.top_shown
  intro fd table' hrun hfd
  obtain ⟨l, info, hl, hinfo, rfl, rfl⟩ := run_sysOpen_eq_ok.mp ⟨hrun, hfd⟩
  obtain ⟨hflags, hhandle⟩ := openInfo_eq_ok hinfo
  refine ⟨info, ?_⟩
  rw [Int.toNat_natCast, getFd_addFd, hhandle]
  have hclean : CleanStart v True r pwd path :=
    ⟨fun _ => hp.legible_root h hlegible, fun _ => hlegible, fun _ => hpath⟩
  rcases hp.userFind_cases h hclean hl with
    ⟨k, hstands, hk, -⟩ | ⟨hslash, n, m, d, pwd', s, hround, rfl⟩
  · exact ⟨k, rfl, hstands.actsOn h (hk.trans hr) fuel, hk⟩
  · have hn := hround.shown.trans hr
    have hd := nul_not_mem_component hpath d (List.mem_of_getLast? hround.last)
    refine ⟨m, rfl, (hround.stands h hr trivial fun _ => hd).actsOn h (hround.next.shown hn) fuel,
      ?_⟩
    refine (h.next_shown_iff hr hround.shown hround.next).mpr ?_
    rintro ⟨rfl, rfl⟩
    have hmoved : n ≠ v.root := by
      rintro rfl
      rcases h.next_cases hn hround.next with ⟨hname, -⟩ | ⟨hdot, -⟩ | ⟨-, hq, hmem⟩
      · exact hname.2 rfl
      · cases hdot
      · exact h.root_not_mem hq hmem
    rcases hround.inner with ⟨hpath, hstart⟩ | hinner
    · exact hesc ⟨hpath, hslash, hstart, hmoved, hround.allowed, hflags⟩
    · exact (hinner.2 trivial).2 hmoved rfl

/-- A process is confined to its root directory where the last component of the path is a name or a
slash follows it. Where the lookup of a C string starts at a legible directory, it is confined
except for the path `..` from that root directory. -/
theorem chroot_confines_iff (h : IsTree v) (hp : Chrooted v p r pwd) (fuel : Nat) (path : Str)
    (flags : UInt32) (table : FdTable OpenNode) :
    ((isDirPath path = true ∨ ∀ d, (pathList path).getLast? = some d → IsName d) →
      Confined v p (fuel + 1) r path flags table) ∧
    (Legible v (startNode r pwd path) → nul ∉ path →
      (Confined v p (fuel + 1) r path flags table ↔ ¬ Escapes v p r path flags)) := by
  have hr := hp.top_shown
  constructor
  · intro hlast fd table' hrun hfd
    obtain ⟨l, info, hl, hinfo, rfl, rfl⟩ := run_sysOpen_eq_ok.mp ⟨hrun, hfd⟩
    obtain ⟨-, hhandle⟩ := openInfo_eq_ok hinfo
    refine ⟨info, ?_⟩
    rw [Int.toNat_natCast, getFd_addFd, hhandle]
    have hclean : CleanStart v False r pwd path := ⟨False.elim, False.elim, False.elim⟩
    rcases hp.userFind_cases h hclean hl with
      ⟨k, hstands, hk, -⟩ | ⟨hslash, n, m, d, pwd', s, hround, rfl⟩
    · exact ⟨k, rfl, hstands.actsOn h (hk.trans hr) fuel, hk⟩
    · have hname : IsName d := by
        rcases hlast with hisDir | hlast
        · rw [hslash] at hisDir
          cases hisDir
        · exact hlast d hround.last
      rcases hround.cases h hr False.elim with ⟨hnode, hinner⟩ | ⟨hdot, -⟩
      · rw [hnode]
        exact ⟨m, rfl, actsOn_plain (kind_node (h.plain m (hinner.1.trans hr))) _, hinner.1⟩
      · exact absurd hname hdot
  · intro hlegible hpath
    refine ⟨fun hconfined hesc => ?_, fun hesc => ?_⟩
    · exact hesc.not_confined h hp hlegible hconfined
    · exact hp.confined_of_not_escapes h hlegible hpath hesc

end

/-- A process of the super user whose root directory is `/a`. -/
def jailedProcess : ProcessData := ⟨0, 0, .node 1, .node 1⟩

theorem dotVfs_chrooted : Chrooted dotVfs jailedProcess 1 1 :=
  have hshown : Shown dotVfs 0 1 := .child .root (by decide)
  ⟨hshown, .root, rfl, .inl rfl, .root, rfl, .inl rfl⟩

/-- A process of the super user that changes its root to `/a`, and then to the entry `.` of it. -/
theorem sysChroots_housed_twice : ∃ p r,
    (each (fun path => do let _ ← dotVfs.sysChroot 1 path) [some ['/', 'a'], some ['/', '.']]).run
        rootProcess = .ok () p ∧
      p.root = .link (.node 1) ['/', 'a', '/'] dot ∧ Housed dotVfs p 0 r 0 := by
  have hp : Housed dotVfs rootProcess dotVfs.root 0 0 :=
    ⟨.root, .root, rfl, .inl rfl, .root, rfl, .inl rfl⟩
  have hrun : (each (fun path => do let _ ← dotVfs.sysChroot 1 path)
      [some ['/', 'a'], some ['/', '.']]).run rootProcess =
      .ok () { rootProcess with root := .link (.node 1) ['/', 'a', '/'] dot } := by
    rfl
  obtain ⟨r, hhoused, -, -⟩ := sysChroots_housed dotVfs_isTree hp .root .root (by decide) hrun
  exact ⟨_, r, hrun, rfl, hhoused⟩

/-- The file `/b` below the root directory is opened inside, and so is what `.` stands for. -/
theorem chroot_confines_sample : Confined dotVfs jailedProcess 1 1 ['/', 'b'] 0 [] ∧
    Confined dotVfs jailedProcess 1 1 ['.'] 0 [] := by
  have hlegible : Legible dotVfs 1 := .child .root (by decide) (by decide)
  refine ⟨(chroot_confines_iff dotVfs_isTree dotVfs_chrooted 0 ['/', 'b'] 0 []).1 (.inr ?_),
    ((chroot_confines_iff dotVfs_isTree dotVfs_chrooted 0 ['.'] 0 []).2 hlegible (by decide)).mpr
      fun hesc => absurd hesc.path_eq (by decide)⟩
  intro d hd
  cases hd
  decide

/-- The path `..` opens the root of the tree. -/
theorem chroot_dotDot_escapes : IsTree dotVfs ∧ Chrooted dotVfs jailedProcess 1 1 ∧
      ¬ Confined dotVfs jailedProcess 1 1 ['.', '.'] 0 [] := by
  refine ⟨dotVfs_isTree, dotVfs_chrooted, fun hconfined => ?_⟩
  have hrun : (dotVfs.sysOpen jailedProcess 1 (some ['.', '.']) 0).run [] =
      .ok 0 [some { node := .node (.link (.node 1) ['/'] ['.', '.']), read := true }] := by rfl
  obtain ⟨info, i, hget, hacts, hshown⟩ := hconfined _ _ hrun (by decide)
  cases hget
  have hroot : dotVfs.actsOn 1 (.link (.node 1) ['/'] ['.', '.']) = some 0 := by decide
  cases hroot.symm.trans hacts
  have hmem : 0 ∈ [1, 2] := hshown.mem (by decide) (by decide)
  exact absurd hmem (by decide)

end Vfs

end LudOS.Fs
