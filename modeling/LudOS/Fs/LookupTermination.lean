import LudOS.Fs.UserFind

/-!
# Lookups among links

`user_find_impl` on a tree with links, whose targets may be anything: missing, the link itself, or
further links. A lookup resolves the links on its way by lookups of their own, with two counters:
one for the depth of the recursion and one for the rounds of each loop. `findRun` is the recursion
with these counters as the source has them, and with gas for a run that may not end.

`Yields` is what a lookup means without the counters: a derivation exists if following the links
comes to an end. `user_find_terminates` says that the source always comes to an end, and to no node
where following the links would not.
-/

namespace LudOS.Fs

open Lib

/-! ## The recursion -/

/-- A call that may not return. -/
abbrev Run := ExceptT LookupError Option

/-- The call has not returned. -/
def unfinished {α : Type} : Run α := ExceptT.mk none

/-- The call has returned. -/
def finished {α : Type} (x : Except LookupError α) : Run α := ExceptT.mk (some x)

namespace Vfs

variable (v : Vfs) (p : ProcessData) (fuel : Nat)

section

variable (lookup : Str → Run Handle) (gas : Nat)

/-- `resolve_symlink_lambd`. -/
def resolveRun (pwd : Str) : (gas counter : Nat) → Handle → Run Nat
  | 0, _, _ => unfinished
  | gas + 1, counter, cur =>
    match v.kind cur with
    | .plain n => pure n
    | .link target =>
      if counter ≥ maxSymlinkLoop then throw (.errno .eloop)
      else do
        let cur ← lookup (concat pwd target)
        resolveRun pwd gas (counter + 1) cur

/-- One round of the loop of `user_find_impl`. -/
def stepRun (s : Handle × Str) (d : Str) : Run (Handle × Str) := do
  let dir ← v.resolveRun lookup s.2 gas 0 s.1
  let child ← finished (v.searchChild p fuel dir d)
  pure (child, appendStr s.2 (concat (v.node dir).name ['/']))

/-- The loop of `user_find_impl`. -/
def walkRun (start : Handle) (ds : List Str) : Run (Handle × Str) :=
  match v.path fuel start with
  | none => throw .crash
  | some pwd => ds.foldlM (v.stepRun p fuel lookup gas) (start, pwd)

/-- The end of `user_find_impl`. -/
def endRun (isDir : Bool) (s : Handle × Str) : Run Handle :=
  if isDir then do
    let dir ← v.resolveRun lookup (parentPath s.2) gas 0 s.1
    if (v.node dir).type ≠ .directory then throw (.errno .enotdir) else pure (.node dir)
  else pure s.1

end

/-- `user_find_impl`; `gas` bounds its recursion, and `rounds` each of its loops over links. -/
def findRun (rounds : Nat) : (gas recurDepth : Nat) → Str → Run Handle
  | 0, _, _ => unfinished
  | gas + 1, recurDepth, path =>
    if recurDepth ≥ maxSymlinkLoop then throw (.errno .eloop)
    else if path = [] then throw (.errno .enoent)
    else do
      let lookup := findRun rounds gas (recurDepth + 1)
      let s ← v.walkRun p fuel lookup rounds (startOf p path) (pathList path)
      v.endRun lookup rounds (isDirPath path) s

end Vfs

/-! ## The counters -/

theorem finished_bind {α β : Type} {f : α → Run β} {g : α → Except LookupError β}
    (h : ∀ a, f a = finished (g a)) (x : Except LookupError α) :
    finished x >>= f = finished (x >>= g) := by
  cases x with
  | error error => rfl
  | ok a => exact h a

/-- A loop whose rounds all return. -/
theorem foldlM_finished {σ : Type} {f : σ → Str → Run σ} {g : σ → Str → Except LookupError σ}
    (h : ∀ s d, f s d = finished (g s d)) (ds : List Str) (s : σ) :
    ds.foldlM f s = finished (ds.foldlM g s) := by
  induction ds generalizing s with
  | nil => rfl
  | cons d ds ih =>
    rw [List.foldlM_cons, List.foldlM_cons, h]
    exact finished_bind ih _

namespace Vfs

variable {v : Vfs} {p : ProcessData} {fuel gas rounds n : Nat}

section

variable {run : Str → Run Handle} {lookup : Str → Except LookupError Handle}

section

variable (hrun : ∀ path, run path = finished (lookup path))

include hrun

/-- The counter goes up to `max_symlink_loop`, so that a loop over links ends if its lookups do. -/
theorem resolveRun_eq (pwd : Str)
    {counter : Nat} (hgas : maxSymlinkLoop < gas + counter) (hpos : 0 < gas) (cur : Handle) :
    v.resolveRun run pwd gas counter cur =
      finished (v.resolveSymlink lookup pwd (maxSymlinkLoop - counter) cur) := by
  induction gas generalizing counter cur with
  | zero => omega
  | succ gas ih =>
    unfold resolveRun
    cases hkind : v.kind cur with
    | plain n =>
      rw [resolveSymlink_plain hkind]
      rfl
    | link target =>
      by_cases hcounter : counter ≥ maxSymlinkLoop
      · simp only [if_pos hcounter, Nat.sub_eq_zero_of_le hcounter, resolveSymlink, hkind]
        rfl
      · have hleft : maxSymlinkLoop - counter = maxSymlinkLoop - (counter + 1) + 1 := by omega
        simp only [if_neg hcounter]
        rw [hleft, resolveSymlink_link hkind, hrun]
        exact finished_bind (fun next => ih (by omega) (by omega) next) _

section

variable (hgas : maxSymlinkLoop < gas)

include hgas

theorem stepRun_eq (s : Handle × Str) (d : Str) :
    v.stepRun p fuel run gas s d = finished (v.userStep p fuel lookup s d) := by
  unfold stepRun userStep
  rw [resolveRun_eq hrun s.2 hgas (by omega) s.1]
  refine finished_bind (fun dir => ?_) _
  exact finished_bind (fun child => rfl) _

theorem walkRun_eq (start : Handle) (ds : List Str) :
    v.walkRun p fuel run gas start ds = finished (v.userWalk p fuel lookup start ds) := by
  unfold walkRun userWalk
  cases v.path fuel start with
  | none => rfl
  | some pwd => exact foldlM_finished (stepRun_eq hrun hgas) ds (start, pwd)

theorem endRun_eq (isDir : Bool) (s : Handle × Str) :
    v.endRun run gas isDir s = finished (v.userEnd lookup isDir s) := by
  unfold endRun userEnd
  cases isDir with
  | false => rfl
  | true =>
    rw [resolveRun_eq hrun _ hgas (by omega) s.1]
    refine finished_bind (fun dir => ?_) _
    by_cases hdir : (v.node dir).type ≠ .directory
    · simp only [if_pos hdir]
      rfl
    · simp only [if_neg hdir]
      rfl

end

end

end

/-- Every call returns, whatever the links are: it goes one level deeper each time it calls itself,
and gives up at the level `max_symlink_loop`. -/
theorem findRun_eq (hrounds : maxSymlinkLoop < rounds) {recurDepth : Nat}
    (hgas : maxSymlinkLoop < gas + recurDepth) (hpos : 0 < gas) (path : Str) :
    v.findRun p fuel rounds gas recurDepth path =
      finished (v.userFindImpl p fuel (maxSymlinkLoop - recurDepth) path) := by
  induction gas generalizing recurDepth path with
  | zero => omega
  | succ gas ih =>
    unfold findRun
    by_cases hdepth : recurDepth ≥ maxSymlinkLoop
    · rw [if_pos hdepth, Nat.sub_eq_zero_of_le hdepth]
      rfl
    · have hleft : maxSymlinkLoop - recurDepth = maxSymlinkLoop - (recurDepth + 1) + 1 := by omega
      rw [if_neg hdepth, hleft, userFindImpl]
      by_cases hpath : path = []
      · rw [if_pos hpath, if_pos hpath]
        rfl
      · rw [if_neg hpath, if_neg hpath]
        have hrun := fun path => @ih (recurDepth + 1) (by omega) (by omega) path
        simp only [walkRun_eq hrun hrounds]
        exact finished_bind (endRun_eq hrun hrounds _) _

/-! ## Methods of directories

The methods of links are those of the node their target is found to be, by a `find` that resolves
links by itself and without a bound. A lookup only calls the methods of nodes that are not links. -/

/-- A link has no children, and is not the root of a mounted file system. -/
structure LinksAreLeaves (v : Vfs) : Prop where
  parent : ∀ n q, (v.node n).parent = some q → (v.node q).link = none
  mounted : ∀ n m, (v.node n).mounted = some m → (v.node m).link = none

namespace LinksAreLeaves

variable (hv : LinksAreLeaves v) (hn : (v.node n).link = none)

include hv hn

theorem host : (v.node (v.host n)).link = none := by
  unfold Vfs.host
  cases hmounted : (v.node n).mounted with
  | none => exact hn
  | some m => exact hv.mounted n m hmounted

theorem readdir (fuel : Nat) : v.readdir fuel (.node n) = some (v.readdirOf n) :=
  readdirWith_node hn (hv.host hn) (hv.parent n) fuel

end LinksAreLeaves

/-- A handle that is not a link is a node of the tree. -/
theorem kind_eq_plain {cur : Handle} (h : v.kind cur = .plain n) :
    cur = .node n ∧ (v.node n).link = none := by
  cases cur with
  | link parent target name => cases h
  | node m =>
    unfold kind at h
    cases hlink : (v.node m).link with
    | some target =>
      simp only [hlink] at h
      cases h
    | none =>
      simp only [hlink] at h
      cases h
      exact ⟨rfl, hlink⟩

section

variable (hv : LinksAreLeaves v)

include hv

theorem LinksAreLeaves.searchChild {n : Nat} (hn : (v.node n).link = none) (d : Str) :
    v.searchChild p fuel n d = v.searchChild p 0 n d := by
  unfold Vfs.searchChild
  rw [hv.readdir hn, hv.readdir hn]

theorem LinksAreLeaves.searchChild_ne_crash (hn : (v.node n).link = none) (d : Str) :
    v.searchChild p fuel n d ≠ .error .crash := by
  unfold Vfs.searchChild
  rw [hv.readdir hn]
  split
  · simp
  · split
    · simp
    · simp only
      split <;> simp

end

/-- Whatever resolving a link ends at is not a link. -/
theorem link_of_resolveSymlink {lookup : Str → Except LookupError Handle} {pwd : Str}
    {left : Nat} {cur : Handle} (h : v.resolveSymlink lookup pwd left cur = .ok n) :
    (v.node n).link = none := by
  induction left generalizing cur with
  | zero =>
    unfold resolveSymlink at h
    cases hkind : v.kind cur with
    | plain m =>
      simp only [hkind] at h
      cases h
      exact (kind_eq_plain hkind).2
    | link target =>
      simp only [hkind] at h
      cases h
  | succ left ih =>
    cases hkind : v.kind cur with
    | plain m =>
      rw [resolveSymlink_plain hkind] at h
      cases h
      exact (kind_eq_plain hkind).2
    | link target =>
      rw [resolveSymlink_link hkind] at h
      obtain ⟨next, -, hnext⟩ := except_bind_eq_ok.mp h
      exact ih hnext

theorem bind_ne_crash {α β : Type} {x : Except LookupError α} {f : α → Except LookupError β}
    (hx : x ≠ .error .crash) (hf : ∀ a, x = .ok a → f a ≠ .error .crash) :
    x >>= f ≠ .error .crash := by
  cases x with
  | error error => exact fun h => hx (congrArg Except.error (Except.error.inj h))
  | ok a => exact hf a rfl

section

variable {lookup : Str → Except LookupError Handle}

theorem resolveSymlink_ne_crash (hlookup : ∀ path, lookup path ≠ .error .crash) (pwd : Str)
    (left : Nat) (cur : Handle) : v.resolveSymlink lookup pwd left cur ≠ .error .crash := by
  induction left generalizing cur with
  | zero =>
    unfold resolveSymlink
    cases v.kind cur <;> simp
  | succ left ih =>
    cases hkind : v.kind cur with
    | plain n => simp [resolveSymlink_plain hkind]
    | link target =>
      rw [resolveSymlink_link hkind]
      exact bind_ne_crash (hlookup _) fun next _ => ih next

theorem userEnd_ne_crash (hlookup : ∀ path, lookup path ≠ .error .crash) (isDir : Bool)
    (s : Handle × Str) : v.userEnd lookup isDir s ≠ .error .crash := by
  unfold userEnd
  cases isDir with
  | false => simp [pure, Except.pure]
  | true =>
    refine bind_ne_crash (resolveSymlink_ne_crash hlookup _ _ _) fun dir _ => ?_
    split <;> simp [pure, Except.pure]

variable (hv : LinksAreLeaves v)

include hv

theorem LinksAreLeaves.userStep : v.userStep p fuel lookup = v.userStep p 0 lookup := by
  funext s d
  unfold Vfs.userStep
  cases hdir : v.resolveSymlink lookup s.2 maxSymlinkLoop s.1 with
  | error error => rfl
  | ok dir =>
    have hlink := link_of_resolveSymlink hdir
    have hsearch := @LinksAreLeaves.searchChild v p fuel hv dir hlink d
    simp only [bind, Except.bind, hsearch]

theorem LinksAreLeaves.userStep_ne_crash (hlookup : ∀ path, lookup path ≠ .error .crash)
    (s : Handle × Str) (d : Str) : v.userStep p fuel lookup s d ≠ .error .crash := by
  refine bind_ne_crash (resolveSymlink_ne_crash hlookup _ _ _) fun dir hdir => ?_
  refine bind_ne_crash (hv.searchChild_ne_crash (link_of_resolveSymlink hdir) d) fun child _ => ?_
  simp [pure, Except.pure]

theorem LinksAreLeaves.foldlM_ne_crash (hlookup : ∀ path, lookup path ≠ .error .crash)
    (ds : List Str) (s : Handle × Str) :
    ds.foldlM (v.userStep p fuel lookup) s ≠ .error .crash := by
  induction ds generalizing s with
  | nil => simp [pure, Except.pure]
  | cons d ds ih =>
    exact bind_ne_crash (hv.userStep_ne_crash hlookup s d) fun next _ => ih next

end

/-- The directories that the lookups of a process start from are not links. -/
structure StartsAtNodes (v : Vfs) (p : ProcessData) : Prop where
  root : ∀ target, v.kind p.root ≠ .link target
  pwd : ∀ target, v.kind p.pwd ≠ .link target

theorem StartsAtNodes.path (hp : StartsAtNodes v p) (path : Str) :
    ∃ pwd, ∀ fuel, v.path fuel (startOf p path) = some pwd := by
  have hstart : ∀ target, v.kind (startOf p path) ≠ .link target := by
    unfold startOf
    split
    · exact hp.pwd
    · exact hp.root
  cases hkind : v.kind (startOf p path) with
  | link target => exact absurd hkind (hstart target)
  | plain n =>
    obtain ⟨hnode, hlink⟩ := kind_eq_plain hkind
    rw [hnode]
    exact ⟨v.pathOf n, path_node hlink⟩

namespace LinksAreLeaves

variable (hv : LinksAreLeaves v) (hp : StartsAtNodes v p) (left : Nat) (path : Str)

include hv hp left path

/-- The bound on chains of links makes no difference to a lookup. -/
theorem userFindImpl : v.userFindImpl p fuel left path = v.userFindImpl p 0 left path := by
  induction left generalizing path with
  | zero => rfl
  | succ left ih =>
    have hlookup : Vfs.userFindImpl v p fuel left = Vfs.userFindImpl v p 0 left := funext ih
    obtain ⟨pwd, hpwd⟩ := hp.path path
    unfold Vfs.userFindImpl userWalk
    rw [hlookup, hpwd, hpwd, hv.userStep]

theorem userFindImpl_ne_crash : v.userFindImpl p fuel left path ≠ .error .crash := by
  induction left generalizing path with
  | zero => simp [Vfs.userFindImpl]
  | succ left ih =>
    unfold Vfs.userFindImpl
    split
    · simp
    · refine bind_ne_crash ?_ fun s _ => userEnd_ne_crash ih _ s
      obtain ⟨pwd, hpwd⟩ := hp.path path
      unfold userWalk
      rw [hpwd]
      exact hv.foldlM_ne_crash ih _ _

end LinksAreLeaves

/-! ## Following links without a bound -/

/-- What a lookup works out on its way. -/
inductive Query where
  | resolve (pwd : Str) (cur : Handle)
  | walk (s : Handle × Str) (ds : List Str)
  | find (path : Str)

/-- What a query ends at. -/
inductive Answer where
  | node (n : Nat)
  | state (s : Handle × Str)
  | handle (h : Handle)

/-- The lookup without its counters. There is no derivation for a link that leads back to itself, or
to nothing. -/
inductive Yields (v : Vfs) (p : ProcessData) : Query → Answer → Prop where
  | plain {pwd : Str} {cur : Handle} {n : Nat} :
      v.kind cur = .plain n → Yields v p (.resolve pwd cur) (.node n)
  | link {pwd target : Str} {cur next : Handle} {n : Nat} :
      v.kind cur = .link target → Yields v p (.find (concat pwd target)) (.handle next) →
      Yields v p (.resolve pwd next) (.node n) → Yields v p (.resolve pwd cur) (.node n)
  | stop (s : Handle × Str) : Yields v p (.walk s []) (.state s)
  | step {s e : Handle × Str} {d : Str} {ds : List Str} {dir : Nat} {child : Handle} :
      Yields v p (.resolve s.2 s.1) (.node dir) → v.searchChild p 0 dir d = .ok child →
      Yields v p (.walk (child, appendStr s.2 (concat (v.node dir).name ['/'])) ds) (.state e) →
      Yields v p (.walk s (d :: ds)) (.state e)
  | file {path pwd : Str} {s : Handle × Str} :
      path ≠ [] → isDirPath path = false → v.path 0 (startOf p path) = some pwd →
      Yields v p (.walk (startOf p path, pwd) (pathList path)) (.state s) →
      Yields v p (.find path) (.handle s.1)
  | directory {path pwd : Str} {s : Handle × Str} {dir : Nat} :
      path ≠ [] → isDirPath path = true → v.path 0 (startOf p path) = some pwd →
      Yields v p (.walk (startOf p path, pwd) (pathList path)) (.state s) →
      Yields v p (.resolve (parentPath s.2) s.1) (.node dir) →
      (v.node dir).type = .directory → Yields v p (.find path) (.handle (.node dir))

/-- Following links ends at one place only. -/
theorem Yields.unique {q : Query} {a b : Answer} (ha : Yields v p q a) (hb : Yields v p q b) :
    a = b := by
  induction ha generalizing b with
  | plain hkind =>
    cases hb with
    | plain hkind' =>
      rw [hkind] at hkind'
      cases hkind'
      rfl
    | link hkind' =>
      rw [hkind] at hkind'
      cases hkind'
  | link hkind _ _ ihfind ihrest =>
    cases hb with
    | plain hkind' =>
      rw [hkind] at hkind'
      cases hkind'
    | link hkind' hfind' hrest' =>
      rw [hkind] at hkind'
      cases hkind'
      cases ihfind hfind'
      exact ihrest hrest'
  | stop s =>
    cases hb
    rfl
  | step _ hsearch _ ihresolve ihrest =>
    cases hb with
    | step hresolve' hsearch' hrest' =>
      cases ihresolve hresolve'
      rw [hsearch] at hsearch'
      cases hsearch'
      exact ihrest hrest'
  | file _ hdir hpwd _ ihwalk =>
    cases hb with
    | file _ _ hpwd' hwalk' =>
      rw [hpwd] at hpwd'
      cases hpwd'
      cases ihwalk hwalk'
      rfl
    | directory _ hdir' =>
      rw [hdir] at hdir'
      cases hdir'
  | directory _ hdir hpwd _ _ _ ihwalk ihresolve =>
    cases hb with
    | file _ hdir' =>
      rw [hdir] at hdir'
      cases hdir'
    | directory _ _ hpwd' hwalk' hresolve' =>
      rw [hpwd] at hpwd'
      cases hpwd'
      cases ihwalk hwalk'
      cases ihresolve hresolve'
      rfl

section

variable {lookup : Str → Except LookupError Handle}
  (hlookup : ∀ path h, lookup path = .ok h → Yields v p (.find path) (.handle h))

include hlookup

theorem yields_of_resolveSymlink {pwd : Str} {left : Nat} {cur : Handle}
    (h : v.resolveSymlink lookup pwd left cur = .ok n) :
    Yields v p (.resolve pwd cur) (.node n) := by
  induction left generalizing cur with
  | zero =>
    cases hkind : v.kind cur with
    | plain m =>
      rw [resolveSymlink_plain hkind] at h
      cases h
      exact .plain hkind
    | link target =>
      simp only [resolveSymlink, hkind] at h
      cases h
  | succ left ih =>
    cases hkind : v.kind cur with
    | plain m =>
      rw [resolveSymlink_plain hkind] at h
      cases h
      exact .plain hkind
    | link target =>
      rw [resolveSymlink_link hkind] at h
      obtain ⟨next, hfind, hnext⟩ := except_bind_eq_ok.mp h
      exact .link hkind (hlookup _ next hfind) (ih hnext)

theorem yields_of_foldlM {s e : Handle × Str} {ds : List Str}
    (h : ds.foldlM (v.userStep p 0 lookup) s = .ok e) : Yields v p (.walk s ds) (.state e) := by
  induction ds generalizing s with
  | nil =>
    cases h
    exact .stop _
  | cons d ds ih =>
    obtain ⟨next, hstep, hrest⟩ := except_bind_eq_ok.mp h
    obtain ⟨dir, hdir, hchild⟩ := except_bind_eq_ok.mp hstep
    obtain ⟨child, hsearch, hnext⟩ := except_bind_eq_ok.mp hchild
    cases hnext
    exact .step (yields_of_resolveSymlink hlookup hdir) hsearch (ih hrest)

end

/-- A node that the source finds is where following the links ends. -/
theorem yields_of_userFindImpl {left : Nat} {path : Str} {h : Handle}
    (hfind : v.userFindImpl p 0 left path = .ok h) : Yields v p (.find path) (.handle h) := by
  induction left generalizing path h with
  | zero => cases hfind
  | succ left ih =>
    unfold userFindImpl at hfind
    by_cases hpath : path = []
    · rw [if_pos hpath] at hfind
      cases hfind
    rw [if_neg hpath] at hfind
    obtain ⟨s, hwalk, hend⟩ := except_bind_eq_ok.mp hfind
    unfold userWalk at hwalk
    cases hpwd : v.path 0 (startOf p path) with
    | none =>
      rw [hpwd] at hwalk
      cases hwalk
    | some pwd =>
      rw [hpwd] at hwalk
      have hsteps := yields_of_foldlM (fun _ _ => ih) hwalk
      cases hdir : isDirPath path with
      | false =>
        rw [hdir] at hend
        cases hend
        exact .file hpath hdir hpwd hsteps
      | true =>
        rw [hdir] at hend
        obtain ⟨dir, hresolve, hend⟩ := except_bind_eq_ok.mp hend
        by_cases htype : (v.node dir).type = .directory
        · rw [if_neg (not_not_intro htype)] at hend
          cases hend
          exact .directory hpath hdir hpwd hsteps
            (yields_of_resolveSymlink (fun _ _ => ih) hresolve) htype
        · rw [if_pos htype] at hend
          cases hend

/-! ## Lookups that have no end -/

/-- A walk resolves the node before every component. -/
theorem Yields.resolves {s e : Handle × Str} {ds es : List Str} {d : Str}
    (h : Yields v p (.walk s (ds ++ d :: es)) (.state e)) :
    ∃ s' n, Yields v p (.walk s ds) (.state s') ∧ Yields v p (.resolve s'.2 s'.1) (.node n) := by
  induction ds generalizing s with
  | nil =>
    cases h with
    | step hresolve => exact ⟨_, _, .stop _, hresolve⟩
  | cons c ds ih =>
    cases h with
    | step hresolve hsearch hrest =>
      obtain ⟨s', n, hwalk, hnode⟩ := ih hrest
      exact ⟨s', n, .step hresolve hsearch hwalk, hnode⟩

/-- The walk along a path comes to a component from which following the links never comes to a node
that is not a link, and has further components to go. -/
def Stuck (v : Vfs) (p : ProcessData) (path : Str) : Prop :=
  ∃ pwd ds d es s, v.path 0 (startOf p path) = some pwd ∧ pathList path = ds ++ d :: es ∧
    Yields v p (.walk (startOf p path, pwd) ds) (.state s) ∧
    ∀ n, ¬ Yields v p (.resolve s.2 s.1) (.node n)

theorem Stuck.not_yields {path : Str} (h : Stuck v p path) (e : Handle) :
    ¬ Yields v p (.find path) (.handle e) := by
  obtain ⟨pwd, ds, d, es, s, hpwd, hlist, hwalk, hnone⟩ := h
  intro hfind
  have hwhole : ∃ e, Yields v p (.walk (startOf p path, pwd) (pathList path)) (.state e) := by
    cases hfind with
    | file _ _ hpwd' hwalk' =>
      rw [hpwd] at hpwd'
      cases hpwd'
      exact ⟨_, hwalk'⟩
    | directory _ _ hpwd' hwalk' =>
      rw [hpwd] at hpwd'
      cases hpwd'
      exact ⟨_, hwalk'⟩
  obtain ⟨e, hwhole⟩ := hwhole
  rw [hlist] at hwhole
  obtain ⟨s', n, hwalk', hnode⟩ := hwhole.resolves
  cases hwalk.unique hwalk'
  exact hnone n hnode

/-- `user_find` returns on every tree, with every process and for every path, and without touching a
node that is not there. It returns no node if resolving a component on the way has no end. -/
theorem user_find_terminates (hv : LinksAreLeaves v) (hp : StartsAtNodes v p) (path : Str) :
    ∃ result : Except LookupError Handle,
      (∀ fuel rounds gas, maxSymlinkLoop < rounds → maxSymlinkLoop < gas →
        v.findRun p fuel rounds gas 0 path = finished result) ∧ result ≠ .error .crash ∧
      (Stuck v p path → ∃ error, result = .error (.errno error)) := by
  have hcrash : v.userFind p 0 path ≠ .error .crash := hv.userFindImpl_ne_crash hp _ path
  refine ⟨v.userFind p 0 path, fun fuel rounds gas hrounds hgas => ?_, hcrash, fun hstuck => ?_⟩
  · have hrun := @findRun_eq v p fuel gas rounds hrounds 0 (by omega) (by omega) path
    rw [hrun, hv.userFindImpl hp]
    rfl
  · cases hresult : v.userFind p 0 path with
    | ok e => exact absurd (yields_of_userFindImpl hresult) (hstuck.not_yields e)
    | error error =>
      cases error with
      | errno error => exact ⟨error, rfl⟩
      | crash => exact absurd hresult hcrash

/-- A root directory with a link to itself. -/
def loopVfs : Vfs where
  node n := [
    { name := [], type := .directory, children := [1] },
    { name := ['l'], type := .symLink, link := some ['l'], parent := some 0 }].getD n
      { name := [], type := .unknown }
  root := 0
  depth n := n
  depth_parent n q h := by grind

/-- A process in the root directory. -/
def loopProcess : ProcessData := ⟨0, 0, .node 0, .node 0⟩

theorem loopVfs_leaves : LinksAreLeaves loopVfs := by
  refine ⟨fun n q h => ?_, fun n m h => ?_⟩
  · rcases n with _ | _ | n
    · cases h
    · cases h
      rfl
    · cases h
  · rcases n with _ | _ | n <;> cases h

/-- Following the link ends at the link. -/
theorem loopVfs_not_resolved {q : Query} {a : Answer} (h : Yields loopVfs loopProcess q a) :
    q ≠ .resolve ['/', '/'] (.node 1) := by
  have hself : Yields loopVfs loopProcess (.find ['/', '/', 'l']) (.handle (.node 1)) :=
    @yields_of_userFindImpl loopVfs loopProcess 1 _ _ rfl
  induction h with
  | plain hkind =>
    intro hq
    cases hq
    cases hkind
  | link hkind hfind _ _ ih =>
    intro hq
    cases hq
    cases hkind
    cases hfind.unique hself
    exact ih rfl
  | stop | step | file | directory => exact nofun

/-- Nothing is found below a link to itself, and the lookup says so. -/
theorem user_find_terminates_loop :
    ∃ error, loopVfs.findRun loopProcess 0 41 41 0 ['/', 'l', '/', 'x'] =
      finished (.error (.errno error)) := by
  have hp : StartsAtNodes loopVfs loopProcess := ⟨nofun, nofun⟩
  have hstuck : Stuck loopVfs loopProcess ['/', 'l', '/', 'x'] := by
    refine ⟨['/'], [['l']], ['x'], [], (.node 1, ['/', '/']), rfl, rfl, ?_, fun n hn => ?_⟩
    · exact @yields_of_foldlM loopVfs loopProcess (fun _ => .error .crash) nofun _ _ _ rfl
    · exact loopVfs_not_resolved hn rfl
  obtain ⟨result, hrun, -, hend⟩ := user_find_terminates loopVfs_leaves hp ['/', 'l', '/', 'x']
  obtain ⟨error, rfl⟩ := hend hstuck
  exact ⟨error, hrun 0 41 41 (by decide) (by decide)⟩

end Vfs

end LudOS.Fs
