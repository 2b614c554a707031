import LudOS.Fs.UserFind
import LudOS.Mem.Paging

/-!
# File descriptors

The model of the descriptor table in `tasking/process.cpp`, of `utils/user_ptr.hpp` and of the calls
`sys_read`, `sys_write` and `sys_lseek`. What a node is and how it stores its bytes is a parameter:
`NodeOps` are the virtual methods of `vfs::node`, and `ByteFile` a regular file among the nodes that
behaves as an array of bytes. The times of access and modification are left out.

Neither of the two calls moves the cursor of the descriptor, so that only empty transfers leave it
where it should be. Both check the first byte of the user's buffer alone, and the kernel's own pages
pass that check.
-/

namespace LudOS.Fs

open Lib Mem
open Tasking.PageMapping (kernelVirtualBase)

/-! ## The descriptor table -/

/-- `tasking::FDInfo` with a node. -/
structure FDInfo (ν : Type) where
  node : ν
  read : Bool := false
  write : Bool := false
  append : Bool := false
  cursor : Nat := 0
  deriving DecidableEq, Repr

/-- `fd_table`. An entry whose node is null is free. -/
abbrev FdTable (ν : Type) := List (Option (FDInfo ν))

/-- `Process::add_fd`. -/
def addFd {ν : Type} (table : FdTable ν) (info : FDInfo ν) : Nat × FdTable ν :=
  match table.findIdx? Option.isNone with
  | some i => (i, table.set i (some info))
  | none => (table.length, table ++ [some info])

/-- `Process::get_fd`. -/
def getFd {ν : Type} (table : FdTable ν) (fd : Nat) : Option (FDInfo ν) := (table[fd]?).join

/-- The descriptor that `add_fd` returns is the new one. -/
theorem getFd_addFd {ν : Type} (table : FdTable ν) (info : FDInfo ν) :
    getFd (addFd table info).2 (addFd table info).1 = some info := by
  unfold addFd getFd
  cases h : table.findIdx? Option.isNone with
  | none => simp
  | some i =>
    have hlt : i < table.length := (List.findIdx?_eq_some_iff_getElem.mp h).1
    simp [hlt]

theorem getFd_set {ν : Type} {table : FdTable ν} {fd : Nat} {info : FDInfo ν}
    (h : getFd table fd = some info) (info' : FDInfo ν) :
    getFd (table.set fd (some info')) fd = some info' := by
  have hlt : fd < table.length := by
    by_contra hge
    rw [getFd, List.getElem?_eq_none (by omega)] at h
    cases h
  simp [getFd, hlt]

/-! ## Nodes -/

/-- `FSError::Type`. -/
inductive FSError where
  | notFound
  | readError
  | writeError
  | invalidLink
  | tooLarge
  | alreadyExists
  | unknown
  deriving DecidableEq, Repr

/-- `FSError::to_errno`. -/
def FSError.toErrno : FSError → Errno
  | .readError => .eio
  | .writeError => .eio
  | .tooLarge => .e2big
  | .invalidLink => .enolink
  | .alreadyExists => .eexist
  | .notFound => .enoent
  | .unknown => .enoent

/-- The virtual methods of the nodes `ν`, over a store `σ`. `readImpl` yields the number it returns
and the bytes it has put into the buffer. -/
structure NodeOps (ν σ : Type) where
  type : ν → σ → NodeType
  size : ν → σ → Nat
  readImpl : ν → (offset count : Nat) → σ → Except FSError (Nat × List UInt8)
  writeImpl : ν → (offset : Nat) → (data : List UInt8) → σ → Except FSError σ

/-- The store and the descriptors of the calling process. -/
structure Files (ν σ : Type) where
  store : σ
  fdTable : FdTable ν

/-- A function of the kernel on these. -/
abbrev FileAction (ν σ : Type) := EStateM Fault (Files ν σ)

section

variable {ν σ : Type} (N : NodeOps ν σ)

/-- `node::read`. -/
def readNode (node : ν) (offset count : Nat) :
    FileAction ν σ (Except FSError (Nat × List UInt8)) := do
  let s ← get
  check .assertion (N.type node s.store ≠ .directory)
  check .assertion (N.size node s.store = 0 ∨ wadd offset count ≤ N.size node s.store)
  pure (N.readImpl node offset count s.store)

/-- `node::write`. -/
def writeNode (node : ν) (offset : Nat) (data : List UInt8) :
    FileAction ν σ (Except FSError Unit) := do
  let s ← get
  check .assertion (N.type node s.store ≠ .directory)
  check .assertion (N.size node s.store = 0 ∨ wadd offset data.length ≤ N.size node s.store)
  match N.writeImpl node offset data s.store with
  | .error e => pure (.error e)
  | .ok store => do
    set { s with store }
    pure (.ok ())

/-! ## System calls -/

/-- `sizeof(void)`, the size that `check` of a `user_ptr<void>` looks at. -/
def sizeofVoid : Nat := 1

/-- `user_ptr<void>::check` without an argument. -/
def userPtrCheck (t : PageTables) (ptr : Nat) : Bool := checkUserPtr t ptr sizeofVoid

/-- `sys_read`: the value returned, and the bytes put at `buf`. -/
def sysRead (t : PageTables) (fd buf count : Nat) : FileAction ν σ (Int × List UInt8) :=
  if userPtrCheck t buf = false then pure (-Errno.efault.code, [])
  else do
    let s ← get
    match getFd s.fdTable fd with
    | none => pure (-Errno.ebadfd.code, [])
    | some entry =>
      if entry.read = false then pure (-Errno.ebadfd.code, [])
      else if N.type entry.node s.store = .directory then pure (-Errno.eisdir.code, [])
      else if N.size entry.node s.store ≠ 0 ∧
          wadd entry.cursor count > N.size entry.node s.store then
        pure (-Errno.eio.code, [])
      else do
        check .assertion (userPtrCheck t buf = true)
        check .outOfBounds (count < 2 ^ 31)
        match ← readNode N entry.node entry.cursor count with
        | .error e => pure (-e.toErrno.code, [])
        | .ok result => pure ((result.1 : Int), result.2)

/-- `sys_write`; `data` are the bytes at `buf`. -/
def sysWrite (t : PageTables) (fd buf : Nat) (data : List UInt8) : FileAction ν σ Int :=
  if userPtrCheck t buf = false then pure (-Errno.efault.code)
  else do
    let s ← get
    match getFd s.fdTable fd with
    | none => pure (-Errno.ebadfd.code)
    | some entry =>
      if entry.write = false then pure (-Errno.ebadfd.code)
      else if N.type entry.node s.store = .directory then pure (-Errno.einval.code)
      else if N.size entry.node s.store ≠ 0 ∧
          wadd entry.cursor data.length ≥ N.size entry.node s.store then
        pure (-Errno.eio.code)
      else do
        check .assertion (userPtrCheck t buf = true)
        check .outOfBounds (data.length < 2 ^ 31)
        match ← writeNode N entry.node entry.cursor data with
        | .error e => pure (-e.toErrno.code)
        | .ok _ => pure (data.length : Int)

/-- The cursor that `sys_lseek` computes as an `int`, if `whence` is one of the three it knows. -/
def newCursor (cursor size : Nat) (off whence : Int) : Option Int :=
  if whence = 1 then some (Int.bmod (Int.bmod cursor (2 ^ 32) + off) (2 ^ 32))
  else if whence = 0 then some off
  else if whence = 2 then some (Int.bmod (size + off) (2 ^ 32))
  else none

/-- `sys_lseek`. -/
def sysLseek (fd : Nat) (off whence : Int) : FileAction ν σ Int := do
  let s ← get
  match getFd s.fdTable fd with
  | none => pure (-Errno.ebadfd.code)
  | some entry =>
    match newCursor entry.cursor (N.size entry.node s.store) off whence with
    | none => pure (-Errno.einval.code)
    | some cursor =>
      if cursor < 0 then pure (-Errno.einval.code)
      else do
        set { s with fdTable := s.fdTable.set fd (some { entry with cursor := cursor.toNat }) }
        pure cursor

/-- The three calls on a descriptor. -/
inductive IoCall where
  | read (buf count : Nat)
  | write (buf : Nat) (data : List UInt8)
  | lseek (off whence : Int)

/-- The user's buffer; `lseek` has none. -/
def IoCall.buffer : IoCall → Option Nat
  | .read buf _ => some buf
  | .write buf _ => some buf
  | .lseek _ _ => none

/-- The number of bytes to transfer. -/
def IoCall.count : IoCall → Nat
  | .read _ count => count
  | .write _ data => data.length
  | .lseek _ _ => 0

/-- Make the call. -/
def IoCall.perform (t : PageTables) (fd : Nat) : IoCall → FileAction ν σ (Int × List UInt8)
  | .read buf count => sysRead N t fd buf count
  | .write buf data => do
    let r ← sysWrite N t fd buf data
    pure (r, [])
  | .lseek off whence => do
    let r ← sysLseek N fd off whence
    pure (r, [])

/-- A call that returns. -/
def IoStep (t : PageTables) (fd : Nat) (s : Files ν σ) (call : IoCall) (s' : Files ν σ) : Prop :=
  ∃ r, (call.perform N t fd).run s = .ok r s'

end

/-! ## What the calls change -/

section

variable {ν σ : Type} {N : NodeOps ν σ} {t : PageTables} {fd buf : Nat} {s s' : Files ν σ}

theorem run_readNode_eq_ok {node : ν} {offset count : Nat} {r : Except FSError (Nat × List UInt8)} :
    (readNode N node offset count).run s = .ok r s' ↔ (N.type node s.store ≠ .directory ∧
        (N.size node s.store = 0 ∨ wadd offset count ≤ N.size node s.store)) ∧
      N.readImpl node offset count s.store = r ∧ s = s' := by
  unfold readNode
  rw [run_get_bind, run_check_bind_eq_ok, run_check_bind_eq_ok, and_assoc]
  refine and_congr_right fun _ => and_congr_right fun _ => ⟨?_, ?_⟩
  · rintro ⟨⟩
    exact ⟨rfl, rfl⟩
  · rintro ⟨rfl, rfl⟩
    rfl

/-- Reading changes nothing, the cursor included. -/
theorem run_sysRead_state {count : Nat} {r : Int × List UInt8}
    (hrun : (sysRead N t fd buf count).run s = .ok r s') : s' = s := by
  unfold sysRead at hrun
  split at hrun
  · cases hrun
    rfl
  rw [run_get_bind] at hrun
  split at hrun
  case h_1 =>
    cases hrun
    rfl
  case h_2 entry _ =>
    split at hrun
    · cases hrun
      rfl
    split at hrun
    · cases hrun
      rfl
    split at hrun
    · cases hrun
      rfl
    obtain ⟨-, hrun⟩ := run_check_bind_eq_ok.mp hrun
    obtain ⟨-, hrun⟩ := run_check_bind_eq_ok.mp hrun
    obtain ⟨result, u, hread, hrun⟩ := run_bind_eq_ok.mp hrun
    obtain ⟨-, -, rfl⟩ := run_readNode_eq_ok.mp hread
    split at hrun <;>
    · cases hrun
      rfl

/-- `node::write` that returns has stored the data or changed nothing. -/
theorem run_writeNode_cases {node : ν} {offset : Nat} {data : List UInt8}
    {r : Except FSError Unit} (hrun : (writeNode N node offset data).run s = .ok r s') :
    (∃ store, N.writeImpl node offset data s.store = .ok store ∧ s' = { s with store }) ∨
      s' = s := by
  obtain ⟨-, hrun⟩ := run_check_bind_eq_ok.mp hrun
  obtain ⟨-, hrun⟩ := run_check_bind_eq_ok.mp hrun
  split at hrun
  case h_1 =>
    cases hrun
    exact .inr rfl
  case h_2 store hstore =>
    cases hrun
    exact .inl ⟨store, hstore, rfl⟩

/-- Writing changes at most the store, by one write at the cursor. -/
theorem run_sysWrite_cases {data : List UInt8} {r : Int}
    (hrun : (sysWrite N t fd buf data).run s = .ok r s') :
    (∃ entry store, getFd s.fdTable fd = some entry ∧ (N.size entry.node s.store = 0 ∨
        wadd entry.cursor data.length < N.size entry.node s.store) ∧
      N.writeImpl entry.node entry.cursor data s.store = .ok store ∧ s' = { s with store }) ∨
      s' = s := by
  unfold sysWrite at hrun
  split at hrun
  · cases hrun
    exact .inr rfl
  rw [run_get_bind] at hrun
  split at hrun
  case h_1 =>
    cases hrun
    exact .inr rfl
  case h_2 entry hentry =>
    split at hrun
    · cases hrun
      exact .inr rfl
    split at hrun
    · cases hrun
      exact .inr rfl
    split at hrun
    · cases hrun
      exact .inr rfl
    case isFalse hbound =>
      obtain ⟨-, hrun⟩ := run_check_bind_eq_ok.mp hrun
      obtain ⟨-, hrun⟩ := run_check_bind_eq_ok.mp hrun
      obtain ⟨result, u, hwrite, hrun⟩ := run_bind_eq_ok.mp hrun
      have hend : s' = u := by
        split at hrun <;>
        · cases hrun
          rfl
      subst hend
      rcases run_writeNode_cases hwrite with ⟨store, hstore, rfl⟩ | rfl
      · exact .inl ⟨entry, store, hentry, by omega, hstore, rfl⟩
      · exact .inr rfl

/-- Seeking changes at most the cursor. -/
theorem run_sysLseek_cases {off whence r : Int}
    (hrun : (sysLseek N fd off whence).run s = .ok r s') :
    (∃ entry cursor, getFd s.fdTable fd = some entry ∧
      s' = { s with fdTable := s.fdTable.set fd (some { entry with cursor }) }) ∨ s' = s := by
  unfold sysLseek at hrun
  rw [run_get_bind] at hrun
  split at hrun
  case h_1 =>
    cases hrun
    exact .inr rfl
  case h_2 entry hentry =>
    split at hrun
    case h_1 =>
      cases hrun
      exact .inr rfl
    case h_2 =>
      split at hrun
      · cases hrun
        exact .inr rfl
      · cases hrun
        exact .inl ⟨entry, _, hentry, rfl⟩

end

/-! ## Regular files -/

/-- A regular file whose methods act as on an array of bytes. -/
structure ByteFile {ν σ : Type} (N : NodeOps ν σ) (node : ν) where
  content : σ → List UInt8
  type_eq : ∀ st, N.type node st = .file
  size_eq : ∀ st, N.size node st = (content st).length
  size_lt : ∀ st, (content st).length < 2 ^ 32
  read_eq : ∀ st offset count, offset + count ≤ (content st).length →
    N.readImpl node offset count st = .ok (count, ((content st).drop offset).take count)
  write_eq : ∀ st offset data, offset + data.length ≤ (content st).length →
    ∃ st', N.writeImpl node offset data st = .ok st' ∧
      content st' = (content st).take offset ++ data ++ (content st).drop (offset + data.length)

section

variable {ν σ : Type} {N : NodeOps ν σ} {t : PageTables} {fd : Nat} {s s' : Files ν σ} {node : ν}

/-- The descriptor is open for reading and writing on the node. -/
def OpenOn (fd : Nat) (node : ν) (s : Files ν σ) : Prop :=
  ∃ info, getFd s.fdTable fd = some info ∧ info.node = node ∧ info.read = true ∧ info.write = true

/-- No call closes the descriptor. -/
theorem OpenOn.step (h : OpenOn fd node s) {call : IoCall} (hstep : IoStep N t fd s call s') :
    OpenOn fd node s' := by
  obtain ⟨r, hrun⟩ := hstep
  cases call with
  | read buf count => exact run_sysRead_state hrun ▸ h
  | write buf data =>
    obtain ⟨_, u, hwrite, hpure⟩ := run_bind_eq_ok.mp hrun
    cases hpure
    rcases run_sysWrite_cases hwrite with ⟨entry, store, -, -, -, rfl⟩ | rfl
    · exact h
    · exact h
  | lseek off whence =>
    obtain ⟨_, u, hseek, hpure⟩ := run_bind_eq_ok.mp hrun
    cases hpure
    rcases run_sysLseek_cases hseek with ⟨entry, cursor, hentry, rfl⟩ | rfl
    · obtain ⟨info, hinfo, hnode, hread, hwrite⟩ := h
      cases hinfo.symm.trans hentry
      exact ⟨_, getFd_set hentry _, hnode, hread, hwrite⟩
    · exact h

/-- The call has a buffer of the user and stays within the file. -/
def InBounds (F : ByteFile N node) (t : PageTables) (s : Files ν σ) (info : FDInfo ν)
    (call : IoCall) : Prop :=
  (∀ buf, call.buffer = some buf → userPtrCheck t buf = true) ∧
    info.cursor + call.count ≤ (F.content s.store).length

/-- The call transfers the bytes at the cursor and moves the cursor behind them. -/
def Transfers (F : ByteFile N node) (t : PageTables) (fd : Nat) (s : Files ν σ) (info : FDInfo ν) :
    IoCall → Prop
  | .read buf count => ∃ s' info',
      (sysRead N t fd buf count).run s =
        .ok ((count : Int), ((F.content s.store).drop info.cursor).take count) s' ∧
      getFd s'.fdTable fd = some info' ∧ info'.cursor = info.cursor + count
  | .write buf data => ∃ r s' info',
      (sysWrite N t fd buf data).run s = .ok r s' ∧
      F.content s'.store = (F.content s.store).take info.cursor ++ data ++
        (F.content s.store).drop (info.cursor + data.length) ∧
      getFd s'.fdTable fd = some info' ∧ info'.cursor = info.cursor + data.length
  | .lseek _ _ => True

/-- In the given state, the call follows the cursor if it is within the file. -/
def FollowsCursor (F : ByteFile N node) (t : PageTables) (fd : Nat) (s : Files ν σ)
    (call : IoCall) : Prop :=
  ∀ info, getFd s.fdTable fd = some info → InBounds F t s info call → Transfers F t fd s info call

section

variable {info : FDInfo ν} (F : ByteFile N node) (hinfo : getFd s.fdTable fd = some info)
  (hnode : info.node = node)

include F hinfo hnode

/-- A read of nothing. -/
theorem run_sysRead_zero {buf : Nat} (hread : info.read = true)
    (hbuf : userPtrCheck t buf = true) (hcursor : info.cursor ≤ (F.content s.store).length) :
    (sysRead N t fd buf 0).run s = .ok (0, []) s := by
  subst hnode
  have hlt := F.size_lt s.store
  have hadd : wadd info.cursor 0 = info.cursor := wadd_of_lt (by omega)
  have hbound : ¬ (N.size info.node s.store ≠ 0 ∧
      wadd info.cursor 0 > N.size info.node s.store) := by
    rw [hadd, F.size_eq]
    omega
  have htype : N.type info.node s.store ≠ .directory := by
    rw [F.type_eq]
    decide
  have hnode : (readNode N info.node info.cursor 0).run s = .ok (.ok (0, [])) s := by
    refine run_readNode_eq_ok.mpr ⟨⟨htype, .inr ?_⟩, ?_, rfl⟩
    · rw [hadd, F.size_eq]
      exact hcursor
    · rw [F.read_eq s.store info.cursor 0 (by omega), List.take_zero]
  unfold sysRead
  rw [if_neg (by simp [hbuf]), run_get_bind]
  simp only [hinfo]
  rw [if_neg (by simp [hread]), if_neg htype, if_neg hbound, run_check_bind hbuf,
    run_check_bind (by decide), run_bind_ok hnode]
  rfl

/-- A write of nothing changes nothing; at the very end of the file it returns an error. -/
theorem run_sysWrite_nil {buf : Nat} (hwrite : info.write = true)
    (hbuf : userPtrCheck t buf = true) (hcursor : info.cursor ≤ (F.content s.store).length) :
    ∃ r s', (sysWrite N t fd buf []).run s = .ok r s' ∧ s'.fdTable = s.fdTable ∧
      F.content s'.store = F.content s.store := by
  subst hnode
  have hlt := F.size_lt s.store
  have hadd : wadd info.cursor 0 = info.cursor := wadd_of_lt (by omega)
  have htype : N.type info.node s.store ≠ .directory := by
    rw [F.type_eq]
    decide
  obtain ⟨store, hstore, hcontent⟩ := F.write_eq s.store info.cursor [] (by simpa using hcursor)
  have hnode : (writeNode N info.node info.cursor []).run s = .ok (.ok ()) { s with store } := by
    unfold writeNode
    rw [run_get_bind, run_check_bind htype, run_bind_ok (run_check_pos ?_ s)]
    · simp only [hstore]
      rfl
    · rw [F.size_eq, List.length_nil, hadd]
      exact .inr hcursor
  unfold sysWrite
  rw [if_neg (by simp [hbuf]), run_get_bind]
  simp only [hinfo]
  rw [if_neg (by simp [hwrite]), if_neg htype]
  split
  · exact ⟨_, s, rfl, rfl, rfl⟩
  · rw [run_check_bind hbuf, run_check_bind (by decide),
      run_bind_ok hnode]
    refine ⟨_, { s with store }, rfl, rfl, ?_⟩
    rw [hcontent]
    simp

end

/-- After every history of calls on a descriptor that is open for reading and writing, a call
follows the cursor exactly when it transfers nothing. -/
theorem follows_cursor_iff (F : ByteFile N node) {s₀ : Files ν σ} {calls : List IoCall}
    (hopen : OpenOn fd node s₀) (hrun : Steps (IoStep N t fd) s₀ calls s) (call : IoCall) :
    FollowsCursor F t fd s call ↔
      ∀ info, getFd s.fdTable fd = some info → InBounds F t s info call → call.count = 0 := by
  obtain ⟨info₀, hinfo₀, hnode, hread, hwrite⟩ :=
    hrun.invariant (OpenOn fd node) (fun _ _ _ h hstep => h.step hstep) hopen
  constructor
  · intro hfollows info hinfo hbounds
    have htransfers := hfollows info hinfo hbounds
    cases call with
    | read buf count =>
      obtain ⟨s', info', hcall, hinfo', hcursor⟩ := htransfers
      rw [run_sysRead_state hcall, hinfo] at hinfo'
      cases hinfo'
      show count = 0
      omega
    | write buf data =>
      obtain ⟨r, s', info', hcall, -, hinfo', hcursor⟩ := htransfers
      have htable : s'.fdTable = s.fdTable := by
        rcases run_sysWrite_cases hcall with ⟨_, _, -, -, -, rfl⟩ | rfl
        · rfl
        · rfl
      rw [htable, hinfo] at hinfo'
      cases hinfo'
      show data.length = 0
      omega
    | lseek off whence => rfl
  · intro hzero info hinfo hbounds
    have hcount := hzero info hinfo hbounds
    cases hinfo₀.symm.trans hinfo
    obtain ⟨hbuf, hcursor⟩ := hbounds
    cases call with
    | read buf count =>
      cases (show count = 0 from hcount)
      refine ⟨s, info₀, ?_, hinfo, rfl⟩
      exact run_sysRead_zero F hinfo hnode hread (hbuf buf rfl) hcursor
    | write buf data =>
      cases List.eq_nil_of_length_eq_zero hcount
      obtain ⟨r, s', hcall, htable, hcontent⟩ :=
        run_sysWrite_nil F hinfo hnode hwrite (hbuf buf rfl) hcursor
      refine ⟨r, s', info₀, hcall, ?_, htable ▸ hinfo, rfl⟩
      rw [hcontent]
      simp
    | lseek off whence => trivial

end

/-- A store that holds one file of two bytes. -/
def pairOps : NodeOps Unit { l : List UInt8 // l.length = 2 } where
  type _ _ := .file
  size _ st := st.1.length
  readImpl _ offset count st := .ok (count, (st.1.drop offset).take count)
  writeImpl _ offset data st :=
    if h : offset + data.length ≤ 2 then
      .ok ⟨st.1.take offset ++ data ++ st.1.drop (offset + data.length), by simp [st.2]; omega⟩
    else .error .writeError

/-- Its file. -/
def pairFile : ByteFile pairOps () where
  content st := st.1
  type_eq _ := rfl
  size_eq _ := rfl
  size_lt st := by rw [st.2]; decide
  read_eq _ _ _ _ := rfl
  write_eq st offset data h := by
    refine ⟨_, dif_pos (st.2 ▸ h), rfl⟩

/-- Page tables in which every page is the user's. -/
def openTables : PageTables := ⟨0, fun _ => { present := true, user := true }⟩

/-- The file is open as descriptor 0. -/
def pairFiles : Files Unit { l : List UInt8 // l.length = 2 } :=
  ⟨⟨[1, 2], rfl⟩, [some { node := (), read := true, write := true }]⟩

theorem openOn_pairFiles : OpenOn 0 () pairFiles := ⟨_, rfl, rfl, rfl, rfl⟩

/-- A read of nothing follows the cursor. -/
theorem follows_cursor_empty_read :
    OpenOn 0 () pairFiles ∧ FollowsCursor pairFile openTables 0 pairFiles (.read 0 0) :=
  ⟨openOn_pairFiles,
    (follows_cursor_iff pairFile openOn_pairFiles (.refl _) (.read 0 0)).mpr fun _ _ _ => rfl⟩

/-- Two reads of one byte return the first byte twice. -/
theorem second_read_repeats_first :
    (∃ s, Steps (IoStep pairOps openTables 0) pairFiles [.read 0 1] s ∧
      (sysRead pairOps openTables 0 0 1).run pairFiles = .ok (1, [1]) s ∧
      (sysRead pairOps openTables 0 0 1).run s = .ok (1, [1]) s) ∧
    ¬ FollowsCursor pairFile openTables 0 pairFiles (.read 0 1) := by
  have hfirst : (sysRead pairOps openTables 0 0 1).run pairFiles = .ok (1, [1]) pairFiles := rfl
  refine ⟨⟨pairFiles, .snoc (.refl _) ⟨_, hfirst⟩, hfirst, hfirst⟩, fun hfollows => ?_⟩
  obtain ⟨s', info', hcall, hinfo', hcursor⟩ :=
    hfollows _ rfl ⟨fun buf hbuf => by cases hbuf; decide, by decide⟩
  cases run_sysRead_state hcall
  cases hinfo'
  cases hcursor

/-! ## User buffers -/

section

variable {ν σ : Type} {N : NodeOps ν σ} {t : PageTables} {fd buf : Nat} {s : Files ν σ}

theorem userPtrCheck_eq (t : PageTables) (ptr : Nat) : userPtrCheck t ptr = t.isUser ptr := by
  have hone : List.range (sizeofVoid / pageSize + if sizeofVoid % pageSize ≠ 0 then 1 else 0) =
      [0] := by decide
  unfold userPtrCheck checkUserPtr PageTables.isUser PageTables.entry
  dsimp only
  rw [hone]
  simp only [List.all_cons, List.all_nil, Nat.add_zero, Bool.and_true]

theorem FSError.code_toErrno_ne (e : FSError) : -e.toErrno.code ≠ -Errno.efault.code := by
  cases e <;> decide

theorem natCast_ne_efault (n : Nat) : (n : Int) ≠ -Errno.efault.code := by
  show (n : Int) ≠ -14
  omega

/-- `sys_read` returns `-EFAULT` exactly when its check fails. -/
theorem run_sysRead_efault {count : Nat} {s' : Files ν σ} {bytes : List UInt8}
    (hrun : (sysRead N t fd buf count).run s = .ok (-Errno.efault.code, bytes) s') :
    userPtrCheck t buf = false := by
  unfold sysRead at hrun
  split at hrun
  case isTrue hfalse => exact hfalse
  rw [run_get_bind] at hrun
  split at hrun
  case h_1 => cases hrun
  case h_2 entry _ =>
    split at hrun
    · cases hrun
    split at hrun
    · cases hrun
    split at hrun
    · cases hrun
    obtain ⟨_, u, -, hrun⟩ := run_bind_eq_ok.mp hrun
    obtain ⟨_, u, -, hrun⟩ := run_bind_eq_ok.mp hrun
    obtain ⟨result, u, -, hrun⟩ := run_bind_eq_ok.mp hrun
    split at hrun
    · injection hrun with hvalue
      exact absurd (congrArg Prod.fst hvalue) (FSError.code_toErrno_ne _)
    · injection hrun with hvalue
      exact absurd (congrArg Prod.fst hvalue) (natCast_ne_efault _)

/-- The same for `sys_write`. -/
theorem run_sysWrite_efault {data : List UInt8} {s' : Files ν σ}
    (hrun : (sysWrite N t fd buf data).run s = .ok (-Errno.efault.code) s') :
    userPtrCheck t buf = false := by
  unfold sysWrite at hrun
  split at hrun
  case isTrue hfalse => exact hfalse
  rw [run_get_bind] at hrun
  split at hrun
  case h_1 => cases hrun
  case h_2 entry _ =>
    split at hrun
    · cases hrun
    split at hrun
    · cases hrun
    split at hrun
    · cases hrun
    obtain ⟨_, u, -, hrun⟩ := run_bind_eq_ok.mp hrun
    obtain ⟨_, u, -, hrun⟩ := run_bind_eq_ok.mp hrun
    obtain ⟨result, u, -, hrun⟩ := run_bind_eq_ok.mp hrun
    split at hrun
    · injection hrun with hvalue
      exact absurd hvalue (FSError.code_toErrno_ne _)
    · injection hrun with hvalue
      exact absurd hvalue (natCast_ne_efault _)

/-- The call is refused with `-EFAULT`. -/
def Refused (N : NodeOps ν σ) (t : PageTables) (fd : Nat) (s : Files ν σ) (call : IoCall) : Prop :=
  (call.perform N t fd).run s = .ok (-Errno.efault.code, []) s

/-- A call with a buffer is refused exactly when the check of the buffer fails. -/
theorem refused_iff {call : IoCall} (hbuf : call.buffer = some buf) :
    Refused N t fd s call ↔ t.isUser buf = false := by
  rw [← userPtrCheck_eq]
  cases call with
  | read buf' count =>
    cases hbuf
    refine ⟨run_sysRead_efault, fun hcheck => ?_⟩
    show (sysRead N t fd buf count).run s = _
    unfold sysRead
    rw [if_pos hcheck]
    rfl
  | write buf' data =>
    cases hbuf
    constructor
    · intro hrun
      obtain ⟨r, u, hwrite, hpure⟩ := run_bind_eq_ok.mp hrun
      cases hpure
      exact run_sysWrite_efault hwrite
    · intro hcheck
      have hwrite : (sysWrite N t fd buf data).run s = .ok (-Errno.efault.code) s := by
        unfold sysWrite
        rw [if_pos hcheck]
        rfl
      exact run_bind_ok hwrite
  | lseek off whence => cases hbuf

/-- The bytes of a buffer lie below the kernel, in user pages. -/
def InUserPages (t : PageTables) (buf count : Nat) : Prop :=
  ∀ i < count, buf + i < kernelVirtualBase ∧ t.isUser (buf + i) = true

/-- With one page checked, a call keeps to the user's memory in all page tables exactly when the
whole buffer lies in one page below the kernel. -/
theorem buffer_in_user_pages_iff (image : KernelImage) (N : NodeOps ν σ) (fd : Nat) (s : Files ν σ)
    {call : IoCall} {buf : UInt32} (hbuf : call.buffer = some buf.toNat) :
    (∀ t, Edited image t → ¬ Refused N t fd s call → InUserPages t buf.toNat call.count) ↔
      call.count = 0 ∨
        buf.toNat < kernelVirtualBase ∧ buf.toNat % pageSize + call.count ≤ pageSize := by
  simp only [refused_iff hbuf, Bool.not_eq_false]
  constructor
  · intro h
    by_cases hcount : call.count = 0
    · exact .inl hcount
    have hlt : buf.toNat < kernelVirtualBase := by
      obtain ⟨t, hedited, huser⟩ := exists_edited_isUser image buf
      exact (h t hedited huser 0 (by omega)).1
    refine .inr ⟨hlt, ?_⟩
    by_contra hcross
    -- The first byte of the next page.
    obtain ⟨i, hi⟩ : ∃ i, buf.toNat % pageSize + i = pageSize :=
      ⟨pageSize - buf.toNat % pageSize, by unfold pageSize; omega⟩
    obtain ⟨t, hedited, huser, halone⟩ := exists_edited_isUser_alone image buf hlt
    obtain ⟨hlt', huser'⟩ := h t hedited huser i (by omega)
    rw [halone _ hlt' (by unfold pageSize at hi ⊢; omega)] at huser'
    cases huser'
  · rintro (hzero | ⟨hlt, hfits⟩) t - huser i hi
    · omega
    · refine ⟨?_, ?_⟩
      · unfold kernelVirtualBase pageSize at *
        omega
      · rw [← huser]
        refine t.isUser_congr ?_
        unfold pageSize at *
        omega

end

/-- A kernel of four megabytes and its tables. -/
def sampleImage : KernelImage := ⟨16, 0x800000, by decide, by decide⟩

/-- A buffer of one page at the start of user memory. -/
theorem buffer_in_user_pages_first_page :
    (IoCall.read 0x08000000 4096).buffer = some (0x08000000 : UInt32).toNat ∧
      ∀ t, Edited sampleImage t → ¬ Refused pairOps t 0 pairFiles (.read 0x08000000 4096) →
        InUserPages t 0x08000000 4096 := by
  have hbuf : (IoCall.read 0x08000000 4096).buffer = some (0x08000000 : UInt32).toNat := rfl
  exact ⟨hbuf, (buffer_in_user_pages_iff sampleImage pairOps 0 pairFiles hbuf).mpr
    (.inr ⟨by decide, by decide⟩)⟩

/-- The first page of the kernel passes the check from the start. -/
theorem kernel_buffer_accepted : Edited sampleImage (createPagingInfo sampleImage fun _ => {}) ∧
      ¬ Refused pairOps (createPagingInfo sampleImage fun _ => {}) 0 pairFiles
        (.read 0xC0000000 1) ∧
      ¬ InUserPages (createPagingInfo sampleImage fun _ => {}) 0xC0000000 1 := by
  have hbuf : (IoCall.read 0xC0000000 1).buffer = some 0xC0000000 := rfl
  refine ⟨edited_createPagingInfo sampleImage _, ?_, fun h => ?_⟩
  · rw [refused_iff hbuf]
    decide
  · exact absurd (h 0 (by decide)).1 (by decide)

end LudOS.Fs
