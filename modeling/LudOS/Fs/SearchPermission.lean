import LudOS.Fs.UserFind

/-!
# Permissions on the way

A lookup asks `check_perms` for read and execute permission on every directory it searches. The
request is the bitwise or of two enumerators, one of which is zero, so what arrives is the request
for execute permission alone, and the ids of the directory arrive cut to 16 bits. A lookup that
returns has therefore been allowed to execute every directory on its way, by the short ids, and
nothing more.
-/

namespace LudOS.Fs

open Lib

/-- One of the three permission bits applies to the process. -/
def ProcessData.Holds (p : ProcessData) (stat : Stat) (user group other : UInt16) : Prop :=
  (stat.uid = p.uid ∧ stat.perms &&& user ≠ 0) ∨ (stat.gid = p.gid ∧ stat.perms &&& group ≠ 0) ∨
    stat.perms &&& other ≠ 0

instance (p : ProcessData) (stat : Stat) (user group other : UInt16) :
    Decidable (p.Holds stat user group other) := inferInstanceAs (Decidable (_ ∨ _ ∨ _))

/-- The process holds read permission. -/
def ProcessData.MayRead (p : ProcessData) (stat : Stat) : Prop := p.Holds stat 0x0100 0x0020 0x0004

/-- The process holds execute permission. -/
def ProcessData.MayExec (p : ProcessData) (stat : Stat) : Prop := p.Holds stat 0x0040 0x0008 0x0001

/-- The node with its ids cut to 16 bits. -/
def Stat.short (stat : Stat) : Stat :=
  { stat with uid := stat.uid.toUInt16.toUInt32, gid := stat.gid.toUInt16.toUInt32 }

/-- The check of a lookup asks for execute permission only. -/
theorem ProcessData.mayAccess_search {p : ProcessData} (hp : p.uid ≠ rootUid) (stat : Stat) :
    p.mayAccess stat (readRequest ||| execRequest) = true ↔ p.MayExec stat.short := by
  simp [mayAccess, checkPerms, hp, MayExec, Holds, Stat.short, requestFlag, readRequest,
    writeRequest, execRequest]

namespace Vfs

/-- A walk along `ds` that meets no link, from `n` to `e`. The list holds the directories whose
children are searched. -/
inductive PlainWalk (v : Vfs) (fuel : Nat) : Nat → List Str → List Nat → Nat → Prop where
  | nil {n : Nat} : (v.node n).link = none → PlainWalk v fuel n [] [] n
  | cons {n c e : Nat} {d : Str} {ds : List Str} {list : List Handle} {dirs : List Nat} :
      (v.node n).link = none → v.readdir fuel (.node n) = some list →
      list.find? (fun child => v.name child = d) = some (.node c) →
      PlainWalk v fuel c ds dirs e → PlainWalk v fuel n (d :: ds) (n :: dirs) e

/-- A lookup that returns has only searched directories on which the process holds both
permissions, as far as it has met no link. -/
def Enforced (v : Vfs) (p : ProcessData) (fuel : Nat) (path : Str) : Prop :=
  ∀ l, v.userFind p fuel path = .ok l → ∀ start dirs e, startOf p path = .node start →
    PlainWalk v fuel start (pathList path) dirs e →
    ∀ n ∈ dirs, p.MayRead (v.node n).stat ∧ p.MayExec (v.node n).stat

section

variable {v : Vfs} {p : ProcessData} {fuel n e : Nat} {d : Str} {ds : List Str} {dirs : List Nat}

theorem PlainWalk.plain_start (h : PlainWalk v fuel n ds dirs e) : (v.node n).link = none := by
  cases h with
  | nil hn => exact hn
  | cons hn _ _ _ => exact hn

theorem PlainWalk.plain_end (h : PlainWalk v fuel n ds dirs e) : (v.node e).link = none := by
  induction h with
  | nil hn => exact hn
  | cons _ _ _ _ ih => exact ih

/-- One round of a lookup that stands at a node. -/
theorem userStep_node {lookup : Str → Except LookupError Handle} {list : List Handle} {c : Nat}
    (hn : (v.node n).link = none) (hlist : v.readdir fuel (.node n) = some list)
    (hchild : list.find? (fun child => v.name child = d) = some (.node c)) (str : Str)
    {s : Handle × Str} :
    v.userStep p fuel lookup (.node n, str) d = .ok s ↔ (v.node n).type = .directory ∧
      p.mayAccess (v.node n).stat (readRequest ||| execRequest) = true ∧
      s = (.node c, appendStr str (concat (v.node n).name ['/'])) := by
  have hstep : v.userStep p fuel lookup (.node n, str) d =
      (v.searchChild p fuel n d >>= fun child =>
        pure (child, appendStr str (concat (v.node n).name ['/']))) := by
    rw [userStep, resolveSymlink_plain (kind_node hn)]
    rfl
  rw [hstep, searchChild, hlist]
  dsimp only
  rw [hchild]
  split
  case isTrue hdir => simp [hdir, bind, Except.bind]
  case isFalse hdir =>
    rw [not_not] at hdir
    split
    case isTrue hperm => simp [hperm, bind, Except.bind]
    case isFalse hperm =>
      rw [Bool.not_eq_false] at hperm
      simp [hdir, hperm, bind, Except.bind, pure, Except.pure, eq_comm]

/-- The loop gets to the end of a walk without links exactly when every directory passes the
checks. -/
theorem PlainWalk.foldlM_eq_ok (h : PlainWalk v fuel n ds dirs e)
    {lookup : Str → Except LookupError Handle} (str : Str) :
    ∃ str', ∀ s, ds.foldlM (v.userStep p fuel lookup) (.node n, str) = .ok s ↔
      s = (.node e, str') ∧ ∀ n ∈ dirs, (v.node n).type = .directory ∧
        p.mayAccess (v.node n).stat (readRequest ||| execRequest) = true := by
  induction h generalizing str with
  | @nil n _ =>
    refine ⟨str, fun s => ⟨fun hrun => ?_, ?_⟩⟩
    · cases hrun
      exact ⟨rfl, by simp⟩
    · rintro ⟨rfl, -⟩
      rfl
  | @cons n c e d ds list dirs hn hlist hchild _ ih =>
    obtain ⟨str', hrest⟩ := ih (appendStr str (concat (v.node n).name ['/']))
    refine ⟨str', fun s => ?_⟩
    rw [List.foldlM_cons, except_bind_eq_ok, List.forall_mem_cons]
    constructor
    · rintro ⟨t, hstep, hrun⟩
      obtain ⟨hdir, hperm, rfl⟩ := (userStep_node hn hlist hchild str).mp hstep
      obtain ⟨hs, hall⟩ := (hrest s).mp hrun
      exact ⟨hs, ⟨hdir, hperm⟩, hall⟩
    · rintro ⟨hs, ⟨hdir, hperm⟩, hall⟩
      exact ⟨_, (userStep_node hn hlist hchild str).mpr ⟨hdir, hperm, rfl⟩,
        (hrest s).mpr ⟨hs, hall⟩⟩

/-- A lookup along a walk without links returns exactly when every directory passes the checks, and
the last node is a directory if the path ends with a slash. -/
theorem PlainWalk.userFind_eq_ok {path : Str} {start : Nat} (hne : path ≠ [])
    (hstart : startOf p path = .node start)
    (h : PlainWalk v fuel start (pathList path) dirs e) :
    (∃ l, v.userFind p fuel path = .ok l) ↔
      (∀ n ∈ dirs, (v.node n).type = .directory ∧
        p.mayAccess (v.node n).stat (readRequest ||| execRequest) = true) ∧
      (isDirPath path = true → (v.node e).type = .directory) := by
  obtain ⟨str, hloop⟩ := @PlainWalk.foldlM_eq_ok v p fuel start e (pathList path) dirs h
    (v.userFindImpl p fuel 39) (v.pathOf start)
  have hfind : v.userFind p fuel path =
      (pathList path).foldlM (v.userStep p fuel (v.userFindImpl p fuel 39))
          (.node start, v.pathOf start) >>=
        v.userEnd (v.userFindImpl p fuel 39) (isDirPath path) := by
    show v.userFindImpl p fuel (39 + 1) path = _
    rw [userFindImpl, if_neg hne, hstart, userWalk, path_node h.plain_start]
  have hend : v.userEnd (v.userFindImpl p fuel 39) (isDirPath path) (.node e, str) =
      if isDirPath path = true ∧ (v.node e).type ≠ .directory then .error (.errno .enotdir)
      else .ok (.node e) := by
    unfold userEnd
    rw [resolveSymlink_plain (kind_node h.plain_end)]
    cases isDirPath path with
    | false => simp [pure, Except.pure]
    | true => simp [bind, Except.bind, pure, Except.pure]
  rw [hfind]
  constructor
  · rintro ⟨l, hl⟩
    obtain ⟨s, hrun, hl⟩ := except_bind_eq_ok.mp hl
    obtain ⟨rfl, hall⟩ := (hloop s).mp hrun
    rw [hend] at hl
    split at hl
    · cases hl
    · rename_i hdir
      exact ⟨hall, fun hisDir => not_not.mp fun hne => hdir ⟨hisDir, hne⟩⟩
  · rintro ⟨hall, hdir⟩
    refine ⟨.node e, except_bind_eq_ok.mpr ⟨_, (hloop _).mpr ⟨rfl, hall⟩, ?_⟩⟩
    rw [hend, if_neg]
    rintro ⟨hisDir, hne⟩
    exact hne (hdir hisDir)

/-- The permissions are enforced exactly for the paths on whose way every directory that the
process may execute by its short ids is one that it may read and execute. -/
theorem enforced_iff (hp : p.uid ≠ rootUid) {path : Str} :
    Enforced v p fuel path ↔ ∀ start dirs e, startOf p path = .node start →
      PlainWalk v fuel start (pathList path) dirs e →
      (∀ n ∈ dirs, (v.node n).type = .directory ∧ p.MayExec (v.node n).stat.short) →
      (isDirPath path = true → (v.node e).type = .directory) →
      ∀ n ∈ dirs, p.MayRead (v.node n).stat ∧ p.MayExec (v.node n).stat := by
  by_cases hne : path = []
  · -- the empty path is refused, and it has no directory to search
    subst hne
    refine ⟨fun _ start dirs e _ hwalk _ _ => ?_, fun _ l hl => ?_⟩
    · cases hwalk
      simp
    · cases hl
  have hfind : ∀ start dirs e, startOf p path = .node start →
      PlainWalk v fuel start (pathList path) dirs e →
      ((∃ l, v.userFind p fuel path = .ok l) ↔
        (∀ n ∈ dirs, (v.node n).type = .directory ∧ p.MayExec (v.node n).stat.short) ∧
        (isDirPath path = true → (v.node e).type = .directory)) := by
    intro start dirs e hstart hwalk
    rw [hwalk.userFind_eq_ok hne hstart]
    simp only [ProcessData.mayAccess_search hp]
  constructor
  · intro henforced start dirs e hstart hwalk hall hdir
    obtain ⟨l, hl⟩ := (hfind start dirs e hstart hwalk).mpr ⟨hall, hdir⟩
    exact henforced l hl start dirs e hstart hwalk
  · intro hall l hl start dirs e hstart hwalk
    obtain ⟨hdirs, hdir⟩ := (hfind start dirs e hstart hwalk).mp ⟨l, hl⟩
    exact hall start dirs e hstart hwalk hdirs hdir

end

/-- A file `f` in a directory that only grants execute permission. -/
def execVfs : Vfs where
  node n := [
    { name := [], type := .directory, stat := ⟨0x0001, 0, 0⟩, children := [1] },
    { name := ['f'], type := .file, parent := some 0 }].getD n { name := [], type := .unknown }
  root := 0
  depth n := n
  depth_parent n p h := by grind

/-- A process of an ordinary user. -/
def userProcess : ProcessData := ⟨1, 1, .node 0, .node 0⟩

theorem sampleVfs_stat (n : Nat) : (sampleVfs.node n).stat = mkstat := by
  match n with
  | 0 | 1 | 2 | 3 | n + 4 => rfl

/-- In a tree where everybody may do everything nothing is left to enforce. -/
theorem enforced_sample : Enforced sampleVfs userProcess 0 ['/', 'm'] := by
  have hp : userProcess.uid ≠ rootUid := by decide
  have hread : userProcess.Holds mkstat 0x0100 0x0020 0x0004 := by decide
  have hexec : userProcess.Holds mkstat 0x0040 0x0008 0x0001 := by decide
  refine (enforced_iff hp).mpr fun _ _ _ _ _ _ _ n _ => ?_
  rw [sampleVfs_stat]
  exact ⟨hread, hexec⟩

theorem execVfs_plainWalk : PlainWalk execVfs 0 0 (pathList ['/', 'f']) [0] 1 := by
  have hlist : pathList ['/', 'f'] = [['f']] := by decide
  rw [hlist]
  exact .cons rfl rfl rfl (.nil rfl)

/-- The file is found in a directory that the process may not read. -/
theorem search_without_read : ¬ Enforced execVfs userProcess 0 ['/', 'f'] := by
  intro henforced
  have hrun : execVfs.userFind userProcess 0 ['/', 'f'] = .ok (.node 1) := by decide
  obtain ⟨hread, -⟩ := henforced (.node 1) hrun 0 [0] 1 rfl execVfs_plainWalk 0 (by simp)
  have hnot : ¬ userProcess.Holds (execVfs.node 0).stat 0x0100 0x0020 0x0004 := by decide
  exact hnot hread

end Vfs

end LudOS.Fs
