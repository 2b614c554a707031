import Mathlib.Data.List.Basic
import LudOS.Lib.Program

/-!
# Pipes

The model of `fs/pipe.cpp`. A pipe is a deque of bytes; `write_impl` makes room at the front and
copies the message there, `read_impl` takes bytes off the back. A call is one step, taken once its
waiting loop has ended; `blocked` is the outcome of a call whose loop still waits. The two
semaphores decide when a waiting call looks at the buffer again, not what it then does, and are
left out.

Messages travel in order, but a message is not a queue of bytes: `read_impl` returns its tail
first. It also reports zero bytes whatever it read. The loop of `write_impl` lets a message pass
that fills the buffer to the last byte, and the assertion behind the loop does not.
-/

namespace LudOS.Fs

open Lib

/-- `vfs::pipe`: the buffer, front first. -/
structure Pipe where
  buffer : List UInt8 := []
  deriving DecidableEq, Repr

namespace Pipe

/-- `pipe_buf_size`. -/
def pipeBufSize : Nat := 0x1000

/-- Why a call did not complete: the error it returns, a loop that still waits, or a failed
assertion. -/
inductive Stop where
  | tooLarge
  | blocked
  | assertion
  deriving DecidableEq, Repr

/-- What a successful `read_impl` leaves: the reported value and the bytes in the caller's span. -/
structure ReadResult where
  value : Nat
  data : List UInt8
  deriving DecidableEq, Repr

/-- `vfs::pipe::read_impl` with a span of `size` bytes. The function ends in `return {}`, so the
value of the `result<size_t>` is the value-initialised one. -/
def readImpl (size : Nat) : EStateM Stop Pipe ReadResult := do
  check .tooLarge (size ≤ pipeBufSize)
  let p ← get
  check .blocked (size ≤ p.buffer.length)
  check .assertion (p.buffer.length ≥ size)
  let data := p.buffer.drop (p.buffer.length - size)
  set { p with buffer := p.buffer.take (p.buffer.length - size) }
  pure ⟨0, data⟩

/-- The loop that pushes one zero to the front for every byte to come. -/
def pushZeroes : Nat → List UInt8 → List UInt8
  | 0, buffer => buffer
  | n + 1, buffer => pushZeroes n (0 :: buffer)

/-- `vfs::pipe::write_impl`. -/
def writeImpl (data : List UInt8) : EStateM Stop Pipe Unit := do
  check .tooLarge (data.length ≤ pipeBufSize)
  let p ← get
  check .blocked (p.buffer.length + data.length ≤ pipeBufSize)
  check .assertion (p.buffer.length + data.length < pipeBufSize)
  -- the copy overwrites the zeroes that were pushed for it
  set { p with buffer := data ++ (pushZeroes data.length p.buffer).drop data.length }

/-- A call on the pipe. -/
inductive Call where
  | write (data : List UInt8)
  | read (size : Nat)
  deriving DecidableEq, Repr

/-- What a call returns. -/
inductive Outcome where
  | wrote
  | got (size : Nat) (result : ReadResult)
  deriving DecidableEq, Repr

/-- One call. -/
def call : Call → EStateM Stop Pipe Outcome
  | .write data => do
    writeImpl data
    pure .wrote
  | .read size => do
    let result ← readImpl size
    pure (.got size result)

/-- A sequence of calls, stopped by the first one that does not succeed. -/
def calls : List Call → EStateM Stop Pipe (List Outcome)
  | [] => pure []
  | c :: cs => do
    let out ← call c
    let outs ← calls cs
    pure (out :: outs)

/-- All bytes written, in call order. -/
def written : List Call → List UInt8
  | [] => []
  | .write data :: cs => data ++ written cs
  | .read _ :: cs => written cs

/-- All bytes returned by the reads, in call order. -/
def returned : List Outcome → List UInt8
  | [] => []
  | .wrote :: outs => returned outs
  | .got _ result :: outs => result.data ++ returned outs

/-- The pipe behaved as a byte queue: what was read is the beginning of what was written, and each
read reported its size. -/
def IsFifo (cs : List Call) (outs : List Outcome) : Prop :=
  returned outs <+: written cs ∧ ∀ size result, Outcome.got size result ∈ outs → result.value = size

/-! ## What one call does -/

theorem push_zeroes_eq (n : Nat) (buffer : List UInt8) :
    pushZeroes n buffer = List.replicate n 0 ++ buffer := by
  induction n generalizing buffer with
  | zero => rfl
  | succ n ih =>
    rw [pushZeroes, ih, List.replicate_succ', List.append_assoc]
    rfl

variable {p p' : Pipe} {cs : List Call} {c : Call} {outs : List Outcome} {data : List UInt8}

/-- A successful write puts the message in front of the buffer. -/
theorem write_impl_ok {u : Unit} (h : (writeImpl data).run p = .ok u p') :
    p.buffer.length + data.length < pipeBufSize ∧ p' = ⟨data ++ p.buffer⟩ := by
  simp only [writeImpl, run_bind_eq_ok, run_check_eq_ok] at h
  obtain ⟨_, _, ⟨_, rfl⟩, q, _, hget, _, _, ⟨_, rfl⟩, _, _, ⟨hlt, rfl⟩, hset⟩ := h
  cases hget
  cases hset
  refine ⟨hlt, ?_⟩
  simp [push_zeroes_eq]

/-- A successful read takes the last bytes of the buffer and reports zero. -/
theorem read_impl_ok {size : Nat} {r : ReadResult} (h : (readImpl size).run p = .ok r p') :
    r.value = 0 ∧ size ≤ p.buffer.length ∧ r.data.length = size ∧
      p.buffer = p'.buffer ++ r.data := by
  simp only [readImpl, run_bind_eq_ok, run_check_eq_ok] at h
  obtain ⟨_, _, ⟨_, rfl⟩, q, _, hget, _, _, ⟨hle, rfl⟩, _, _, ⟨_, rfl⟩, _, _, hset, hpure⟩ := h
  cases hget
  cases hset
  cases hpure
  refine ⟨rfl, hle, ?_, (List.take_append_drop _ _).symm⟩
  rw [List.length_drop]
  omega

/-! ## Sequences of calls -/

/-- A sequence succeeds when its first call and the rest do. -/
theorem calls_cons_ok : (calls (c :: cs)).run p = .ok outs p' ↔
      ∃ out q rest, (call c).run p = .ok out q ∧ (calls cs).run q = .ok rest p' ∧
        outs = out :: rest := by
  simp only [calls, run_bind_eq_ok]
  constructor
  · rintro ⟨out, q, hcall, rest, _, hrest, hpure⟩
    cases hpure
    exact ⟨out, q, rest, hcall, hrest, rfl⟩
  · rintro ⟨out, q, rest, hcall, hrest, rfl⟩
    exact ⟨out, q, hcall, rest, p', hrest, rfl⟩

/-- What a successful call leaves behind, by the kind of call. -/
theorem call_ok {out : Outcome} {q : Pipe} (h : (call c).run p = .ok out q) :
    (∃ data, c = .write data ∧ out = .wrote ∧ q = ⟨data ++ p.buffer⟩) ∨
      ∃ size r, c = .read size ∧ out = .got size r ∧ r.value = 0 ∧ r.data.length = size ∧
        p.buffer = q.buffer ++ r.data := by
  cases c with
  | write data =>
    simp only [call, run_bind_eq_ok] at h
    obtain ⟨_, _, hwrite, hpure⟩ := h
    cases hpure
    exact Or.inl ⟨data, rfl, rfl, (write_impl_ok hwrite).2⟩
  | read size =>
    simp only [call, run_bind_eq_ok] at h
    obtain ⟨r, _, hread, hpure⟩ := h
    cases hpure
    obtain ⟨hvalue, _, hlen, hbuf⟩ := read_impl_ok hread
    exact Or.inr ⟨size, r, rfl, rfl, hvalue, hlen, hbuf⟩

/-- Every read of a successful sequence reports zero and fills its span, and no other outcome is a
read. -/
theorem got_mem_iff (h : (calls cs).run p = .ok outs p') :
    (∀ size, .read size ∈ cs ↔ ∃ r, .got size r ∈ outs) ∧
      ∀ size r, .got size r ∈ outs → r.value = 0 ∧ r.data.length = size := by
  induction cs generalizing outs p with
  | nil =>
    cases h
    simp
  | cons c cs ih =>
    obtain ⟨out, q, rest, hcall, hrest, rfl⟩ := calls_cons_ok.mp h
    obtain ⟨hreads, hgot⟩ := ih hrest
    obtain ⟨data, rfl, rfl, _⟩ | ⟨size, r, rfl, rfl, hvalue, hlen, _⟩ := call_ok hcall
    · simpa using ⟨hreads, hgot⟩
    · refine ⟨fun n => ?_, fun n r' hmem => ?_⟩
      · simp only [List.mem_cons, Call.read.injEq, Outcome.got.injEq, hreads n]
        constructor
        · rintro (rfl | ⟨r', hr'⟩)
          · exact ⟨r, Or.inl ⟨rfl, rfl⟩⟩
          · exact ⟨r', Or.inr hr'⟩
        · rintro ⟨r', ⟨rfl, _⟩ | hr'⟩
          · exact Or.inl rfl
          · exact Or.inr ⟨r', hr'⟩
      · rcases List.mem_cons.mp hmem with heq | hmem
        · cases heq
          exact ⟨hvalue, hlen⟩
        · exact hgot n r' hmem

/-- Reads of nothing return nothing. -/
theorem returned_eq_nil (h : ∀ size r, .got size r ∈ outs → r.data = []) : returned outs = [] := by
  induction outs with
  | nil => rfl
  | cons out outs ih =>
    have hrest := ih fun size r hmem => h size r (List.mem_cons_of_mem _ hmem)
    cases out with
    | wrote => exact hrest
    | got size r => rw [returned, hrest, h size r List.mem_cons_self, List.append_nil]

/-- A successful sequence of calls on a fresh pipe shows a byte queue exactly when every read in
it asks for no bytes at all, since a read reports zero whatever its size. -/
theorem fifo_iff (cs : List Call) (outs : List Outcome) (p' : Pipe)
    (h : (calls cs).run {} = .ok outs p') :
    IsFifo cs outs ↔ ∀ size, .read size ∈ cs → size = 0 := by
  obtain ⟨hreads, hgot⟩ := got_mem_iff h
  constructor
  · rintro ⟨_, hvalue⟩ size hmem
    obtain ⟨r, hr⟩ := (hreads size).mp hmem
    rw [← hvalue size r hr, (hgot size r hr).1]
  · intro hzero
    have hsize : ∀ size r, Outcome.got size r ∈ outs → size = 0 := fun size r hr =>
      hzero size ((hreads size).mpr ⟨r, hr⟩)
    refine ⟨?_, fun size r hr => by rw [(hgot size r hr).1, hsize size r hr]⟩
    rw [returned_eq_nil fun size r hr =>
      List.length_eq_zero_iff.mp ((hgot size r hr).2.trans (hsize size r hr))]
    exact List.nil_prefix

/-- A message written and a read of nothing. -/
theorem fifo_of_empty_read : IsFifo [.write [1, 2], .read 0] [.wrote, .got 0 ⟨0, []⟩] :=
  (fifo_iff [.write [1, 2], .read 0] _ ⟨[1, 2]⟩ rfl).mpr (by simp)

/-- One byte read from a message of two: it is the second one, and the read reports zero. -/
theorem read_returns_last_byte :
    (calls [.write [1, 2], .read 1]).run {} = .ok [.wrote, .got 1 ⟨0, [2]⟩] ⟨[1]⟩ ∧
      ¬ returned [.wrote, .got 1 ⟨0, [2]⟩] <+: written [.write [1, 2], .read 1] ∧
      ¬ IsFifo [.write [1, 2], .read 1] [.wrote, .got 1 ⟨0, [2]⟩] := by
  have hne : ¬ returned [.wrote, .got 1 ⟨0, [2]⟩] <+: written [.write [1, 2], .read 1] := by decide
  exact ⟨rfl, hne, fun h => hne h.1⟩

/-! ## Capacity

The number of bytes in the buffer is all that the loops and the assertions look at. -/

/-- The number of bytes that a call leaves in a buffer of `level` bytes. -/
def levelAfter (level : Nat) : Call → Nat
  | .write data => level + data.length
  | .read size => level - size

/-- The loop of the call ends when the buffer holds `level` bytes. -/
def Leaves (level : Nat) : Call → Prop
  | .write data => level + data.length ≤ pipeBufSize
  | .read size => size ≤ level

/-- A call of a size that the pipe accepts. -/
def Accepts : Call → Prop
  | .write data => data.length ≤ pipeBufSize
  | .read size => size ≤ pipeBufSize

instance (level : Nat) (c : Call) : Decidable (Leaves level c) :=
  match c with
  | .write data => inferInstanceAs (Decidable (level + data.length ≤ pipeBufSize))
  | .read size => inferInstanceAs (Decidable (size ≤ level))

instance (c : Call) : Decidable (Accepts c) :=
  match c with
  | .write data => inferInstanceAs (Decidable (data.length ≤ pipeBufSize))
  | .read size => inferInstanceAs (Decidable (size ≤ pipeBufSize))

/-- Every call of the sequence is accepted, and is executed once its loop lets it pass. -/
def Admitted : Nat → List Call → Prop
  | _, [] => True
  | level, c :: cs => Accepts c ∧ Leaves level c ∧ Admitted (levelAfter level c) cs

/-- No call of the sequence fills the buffer to the last byte. -/
def NeverFills : Nat → List Call → Prop
  | _, [] => True
  | level, c :: cs => levelAfter level c ≠ pipeBufSize ∧ NeverFills (levelAfter level c) cs

/-- From the pipe `p` on, every part of the sequence runs to its end, so that no assertion fails,
and never leaves more than `pipe_buf_size` bytes. -/
def RespectsCapacity (p : Pipe) (cs : List Call) : Prop :=
  ∀ done rest, cs = done ++ rest →
    ∃ outs q, (calls done).run p = .ok outs q ∧ q.buffer.length ≤ pipeBufSize

/-- A message that leaves at least one byte of room is written. -/
theorem run_write_impl (h : p.buffer.length + data.length < pipeBufSize) :
    (writeImpl data).run p = .ok () ⟨data ++ p.buffer⟩ := by
  unfold writeImpl
  rw [run_check_bind (by omega), run_get_bind, run_check_bind (by omega), run_check_bind h]
  show EStateM.Result.ok () _ = _
  simp [push_zeroes_eq]

/-- A message that fills the buffer passes the loop and fails the assertion. -/
theorem run_write_impl_full (h : p.buffer.length + data.length = pipeBufSize) :
    (writeImpl data).run p = .error .assertion p := by
  unfold writeImpl
  rw [run_check_bind (by omega), run_get_bind, run_check_bind (by omega)]
  exact run_bind_error (run_check_neg (by omega) _)

/-- A read of what is there succeeds. -/
theorem run_read_impl {size : Nat} (hsize : size ≤ pipeBufSize) (h : size ≤ p.buffer.length) :
    ∃ r q, (readImpl size).run p = .ok r q ∧ q.buffer.length = p.buffer.length - size := by
  unfold readImpl
  rw [run_check_bind hsize, run_get_bind, run_check_bind h, run_check_bind h]
  refine ⟨_, _, rfl, ?_⟩
  rw [List.length_take]
  omega

/-- A call that is let pass succeeds exactly when it does not fill the buffer. -/
theorem run_call (hfit : p.buffer.length < pipeBufSize) (haccept : Accepts c)
    (hleave : Leaves p.buffer.length c) :
    (levelAfter p.buffer.length c ≠ pipeBufSize → ∃ out q, (call c).run p = .ok out q ∧
      q.buffer.length = levelAfter p.buffer.length c) ∧
    (levelAfter p.buffer.length c = pipeBufSize → (call c).run p = .error .assertion p) := by
  cases c with
  | write data =>
    refine ⟨fun hne => ?_, fun heq => ?_⟩
    · have hlt : p.buffer.length + data.length < pipeBufSize := Nat.lt_of_le_of_ne hleave hne
      refine ⟨.wrote, ⟨data ++ p.buffer⟩, run_bind_ok (run_write_impl hlt), ?_⟩
      show (data ++ p.buffer).length = p.buffer.length + data.length
      rw [List.length_append, Nat.add_comm]
    · exact run_bind_error (run_write_impl_full heq)
  | read size =>
    refine ⟨fun _ => ?_, fun heq => ?_⟩
    · obtain ⟨r, q, hrun, hlen⟩ := run_read_impl haccept hleave
      exact ⟨.got size r, q, run_bind_ok hrun, hlen⟩
    · -- A read never fills the buffer.
      have heq : p.buffer.length - size = pipeBufSize := heq
      omega

/-- A sequence respects the capacity when its first call does and the rest does afterwards. -/
theorem respects_capacity_cons {q : Pipe} {out : Outcome}
    (hp : p.buffer.length ≤ pipeBufSize) (hcall : (call c).run p = .ok out q) :
    RespectsCapacity p (c :: cs) ↔ RespectsCapacity q cs := by
  have hrun : ∀ done outs t, (calls (c :: done)).run p = .ok outs t ↔
      ∃ rest, (calls done).run q = .ok rest t ∧ outs = out :: rest := by
    intro done outs t
    rw [calls_cons_ok]
    constructor
    · rintro ⟨out', q', rest, hcall', hrest, rfl⟩
      cases hcall.symm.trans hcall'
      exact ⟨rest, hrest, rfl⟩
    · rintro ⟨rest, hrest, rfl⟩
      exact ⟨out, q, rest, hcall, hrest, rfl⟩
  constructor
  · intro h done rest hsplit
    obtain ⟨outs, t, ht, hlen⟩ := h (c :: done) rest (congrArg (c :: ·) hsplit)
    obtain ⟨outs', hdone, -⟩ := (hrun done outs t).mp ht
    exact ⟨outs', t, hdone, hlen⟩
  · intro h done rest hsplit
    cases done with
    | nil => exact ⟨[], p, rfl, hp⟩
    | cons c' done =>
      obtain ⟨rfl, rfl⟩ := List.cons.inj hsplit
      obtain ⟨outs, t, ht, hlen⟩ := h done rest rfl
      exact ⟨out :: outs, t, (hrun done _ t).mpr ⟨outs, ht, rfl⟩, hlen⟩

/-- The same from any pipe that is not full. -/
theorem respects_capacity_iff (hfit : p.buffer.length < pipeBufSize)
    (h : Admitted p.buffer.length cs) : RespectsCapacity p cs ↔ NeverFills p.buffer.length cs := by
  induction cs generalizing p with
  | nil =>
    refine ⟨fun _ => trivial, fun _ done rest hsplit => ?_⟩
    obtain ⟨rfl, rfl⟩ := List.append_eq_nil_iff.mp hsplit.symm
    exact ⟨[], p, rfl, Nat.le_of_lt hfit⟩
  | cons c cs ih =>
    obtain ⟨haccept, hleave, hrest⟩ := h
    obtain ⟨hok, hfull⟩ := run_call hfit haccept hleave
    by_cases hne : levelAfter p.buffer.length c = pipeBufSize
    · refine ⟨fun hrespects => ?_, fun hnever => absurd hne hnever.1⟩
      obtain ⟨outs, q, hrun, -⟩ := hrespects [c] cs rfl
      obtain ⟨out, q', rest, hcall, -⟩ := calls_cons_ok.mp hrun
      cases hcall.symm.trans (hfull hne)
    · obtain ⟨out, q, hcall, hlen⟩ := hok hne
      have hlt : q.buffer.length < pipeBufSize := by
        cases c with
        | write data => exact hlen ▸ Nat.lt_of_le_of_ne hleave hne
        | read size => exact hlen ▸ Nat.lt_of_le_of_lt (Nat.sub_le _ _) hfit
      rw [respects_capacity_cons (Nat.le_of_lt hfit) hcall, ih hlt (hlen ▸ hrest), hlen]
      exact ⟨fun h => ⟨hne, h⟩, fun h => h.2⟩

/-- On a fresh pipe, a sequence of calls each of which is executed once its loop lets it pass
respects the capacity without failing an assertion exactly when no write fills the buffer. -/
theorem capacity_respected_iff (cs : List Call) (h : Admitted 0 cs) :
    RespectsCapacity {} cs ↔ NeverFills 0 cs :=
  respects_capacity_iff (by decide) h

/-- Two bytes written and one of them read. -/
theorem capacity_respected_short_message : RespectsCapacity {} [.write [1, 2], .read 1] :=
  (capacity_respected_iff [.write [1, 2], .read 1]
    ⟨by decide, by decide, by decide, by decide, trivial⟩).mpr ⟨by decide, by decide, trivial⟩

/-- A message of 4096 bytes on the fresh pipe is let pass and fails the assertion. -/
theorem full_message_fails_assertion : Admitted 0 [.write (List.replicate pipeBufSize 0)] ∧
      (call (.write (List.replicate pipeBufSize 0))).run {} = .error .assertion {} ∧
      ¬ RespectsCapacity {} [.write (List.replicate pipeBufSize 0)] := by
  have hlen : (List.replicate pipeBufSize (0 : UInt8)).length = pipeBufSize := List.length_replicate
  generalize List.replicate pipeBufSize (0 : UInt8) = data at hlen ⊢
  have hlevel : levelAfter 0 (.write data) = pipeBufSize := (Nat.zero_add _).trans hlen
  have hadmitted : Admitted 0 [.write data] := ⟨Nat.le_of_eq hlen, Nat.le_of_eq hlevel, trivial⟩
  have hfit : ({} : Pipe).buffer.length < pipeBufSize := by decide
  refine ⟨hadmitted, (run_call hfit hadmitted.1 hadmitted.2.1).2 hlevel, fun hrespects => ?_⟩
  exact ((respects_capacity_iff hfit hadmitted).mp hrespects).1 hlevel

end Pipe

end LudOS.Fs
