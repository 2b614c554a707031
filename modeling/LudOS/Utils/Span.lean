import LudOS.Lib.Bytes
import LudOS.Lib.Program

/-!
# Machine words, spans and chunking

`size_t` is 32 bits wide on i686: its arithmetic is `Nat` arithmetic wrapped at `2 ^ 32`, and the
wrapping operations appear wherever the source can leave the range. `Span` is `gsl::span`, whose
constructor refuses a size that is negative as a `ptrdiff_t`. `split` is the chunking loop of
`utils/stlutils.hpp`.
-/

namespace LudOS

variable {chunkSize a s b : Nat}

open Lib

/-- How a kernel function can stop: a failed `assert` (a panic), a contract of `gsl::span` or an
access outside of a buffer, an explicit `panic`, or the use of a pointer to nothing. -/
inductive Fault where
  | assertion
  | outOfBounds
  | panic
  | invalidPointer
  deriving DecidableEq, Repr

/-! ## `size_t` arithmetic -/

/-- `size_t` addition. -/
def wadd (a b : Nat) : Nat := (a + b) % 2 ^ 32

/-- `size_t` subtraction. -/
def wsub (a b : Nat) : Nat := (a + (2 ^ 32 - b % 2 ^ 32)) % 2 ^ 32

/-- `size_t` multiplication. -/
def wmul (a b : Nat) : Nat := (a * b) % 2 ^ 32

theorem wadd_of_lt (h : a + b < 2 ^ 32) : wadd a b = a + b :=
  Nat.mod_eq_of_lt h

theorem wmul_of_lt (h : a * b < 2 ^ 32) : wmul a b = a * b :=
  Nat.mod_eq_of_lt h

theorem wsub_of_le (h : b ≤ a) (ha : a < 2 ^ 32) : wsub a b = a - b := by
  simp only [wsub]
  omega

/-- The wrapped difference keeps its residue modulo a power of two. -/
theorem wsub_mod_pow {k : Nat} (hk : k ≤ 32) : wsub a (2 ^ k) % 2 ^ k = a % 2 ^ k := by
  have hdvd : 2 ^ k ∣ 2 ^ 32 := Nat.pow_dvd_pow 2 hk
  rw [wsub, Nat.mod_mod_of_dvd _ hdvd]
  obtain ⟨c, hc⟩ : 2 ^ k ∣ 2 ^ 32 - 2 ^ k % 2 ^ 32 := by
    refine Nat.dvd_sub hdvd ?_
    exact (Nat.dvd_mod_iff hdvd).mpr (Nat.dvd_refl _)
  rw [hc, Nat.add_mul_mod_self_left]

/-! ## Spans -/

/-- A `gsl::span<uint8_t>`: the bytes it points to and its size. -/
structure Span where
  bytes : Bytes
  size : Nat
  size_lt : size < 2 ^ 31

namespace Span

/-- The empty span. -/
def empty : Span := ⟨fun _ => 0, 0, by decide⟩

/-- `subspan(off, n)`, cut at the end of the span. -/
def sub (s : Span) (off n : Nat) : Span :=
  ⟨s.bytes.view off, min n (s.size - off), by have := s.size_lt; omega⟩

/-- The span after its `n` bytes at `pos` have been overwritten. -/
def put (s : Span) (pos n : Nat) (src : Bytes) : Span :=
  ⟨s.bytes.splice pos n src, s.size, s.size_lt⟩

@[simp] theorem size_put (s : Span) (pos n : Nat) (src : Bytes) : (s.put pos n src).size = s.size :=
  rfl

@[simp] theorem bytes_put (s : Span) (pos n : Nat) (src : Bytes) :
    (s.put pos n src).bytes = s.bytes.splice pos n src := rfl

@[simp] theorem bytes_sub (s : Span) (off n : Nat) : (s.sub off n).bytes = s.bytes.view off := rfl

theorem size_sub {s : Span} {off n : Nat} (h : off + n ≤ s.size) : (s.sub off n).size = n := by
  simp only [sub]
  omega

@[simp] theorem size_empty : empty.size = 0 := rfl

end Span

/-! ## Chunking -/

/-- The loop of `split` from `base` on. A chunk size of zero never ends in the source; here it
yields the rest as one chunk. -/
def splitFrom (data : Span) (chunkSize base : Nat) : List Span :=
  if 0 < chunkSize ∧ base + chunkSize ≤ data.size then
    data.sub base chunkSize :: splitFrom data chunkSize (base + chunkSize)
  else if base < data.size then [data.sub base (data.size - base)]
  else []
termination_by data.size - base

/-- `split`: the chunks of `chunkSize` bytes, the last one possibly shorter. -/
def split (data : Span) (chunkSize : Nat) : List Span := splitFrom data chunkSize 0

/-- The number of chunks the callers of `split` compute beside it. -/
def chunkCount (size chunkSize : Nat) : Nat :=
  size / chunkSize + if size % chunkSize ≠ 0 then 1 else 0

theorem chunk_count_mul_ge {size chunkSize : Nat} (h : 0 < chunkSize) :
    size ≤ chunkCount size chunkSize * chunkSize := by
  have hdiv := Nat.div_add_mod size chunkSize
  have hmod := Nat.mod_lt size h
  simp only [chunkCount, Nat.add_mul, Nat.mul_comm (size / chunkSize)]
  split <;> omega

theorem chunk_count_pred_lt {size i : Nat} (h : 0 < chunkSize)
    (hi : i < chunkCount size chunkSize) : i * chunkSize < size := by
  have hdiv := Nat.div_add_mod size chunkSize
  simp only [chunkCount] at hi
  by_cases hmod : size % chunkSize = 0
  · simp only [hmod, ne_eq, not_true_eq_false, if_false, Nat.add_zero] at hi
    have hmul : (i + 1) * chunkSize ≤ size / chunkSize * chunkSize := Nat.mul_le_mul_right _ hi
    rw [Nat.add_mul, Nat.mul_comm (size / chunkSize)] at hmul
    omega
  · simp only [ne_eq, hmod, not_false_eq_true, if_true] at hi
    have hmul : i * chunkSize ≤ size / chunkSize * chunkSize :=
      Nat.mul_le_mul_right _ (Nat.le_of_lt_succ hi)
    rw [Nat.mul_comm (size / chunkSize)] at hmul
    omega

/-- More data does not make fewer chunks. -/
theorem chunk_count_mono {size size' : Nat} (h : 0 < chunkSize) (hle : size ≤ size') :
    chunkCount size chunkSize ≤ chunkCount size' chunkSize := by
  by_contra hlt
  have hpred := chunk_count_pred_lt h (Nat.lt_of_not_le hlt)
  have hmul : size' ≤ _ := chunk_count_mul_ge h
  omega

/-- Every chunk from `base` on, by its index. -/
theorem split_from_get (data : Span) (hpos : 0 < chunkSize) (base i : Nat)
    (h : base + i * chunkSize < data.size) : (splitFrom data chunkSize base)[i]? =
      some (data.sub (base + i * chunkSize)
        (min chunkSize (data.size - (base + i * chunkSize)))) := by
  induction i generalizing base with
  | zero =>
    simp only [Nat.zero_mul, Nat.add_zero] at h ⊢
    rw [splitFrom]
    by_cases hfull : base + chunkSize ≤ data.size
    · simp [hpos, hfull, show min chunkSize (data.size - base) = chunkSize by omega]
    · simp [hfull, h, show min chunkSize (data.size - base) = data.size - base by omega]
  | succ i ih =>
    have hstep : base + (i + 1) * chunkSize = base + chunkSize + i * chunkSize := by ring
    rw [hstep] at h ⊢
    have hfull : 0 < chunkSize ∧ base + chunkSize ≤ data.size := ⟨hpos, by omega⟩
    rw [splitFrom, if_pos hfull, List.getElem?_cons_succ]
    exact ih (base + chunkSize) h

/-- The chunk with index `i` is the data from `i * chunkSize` on, `chunkSize` bytes or what is
left. -/
theorem split_get (data : Span) {i : Nat} (hpos : 0 < chunkSize)
    (hi : i < chunkCount data.size chunkSize) : (split data chunkSize)[i]? =
      some (data.sub (i * chunkSize) (min chunkSize (data.size - i * chunkSize))) := by
  have h := split_from_get data hpos 0 i (by simpa using chunk_count_pred_lt hpos hi)
  simpa [split] using h

/-! ## Strides

`Disk::read` and the file read of ext2 cut a span into an unaligned head, aligned pieces of `s`
bytes and an unaligned tail. -/

/-- A number determines its quotient and its remainder. -/
theorem mul_add_inj {q r q' r' : Nat} (hr : r < s) (hr' : r' < s) (h : q * s + r = q' * s + r') :
    q = q' ∧ r = r' := by
  have hs : 0 < s := Nat.lt_of_le_of_lt (Nat.zero_le _) hr
  have hdiv := congrArg (· / s) h
  have hmod := congrArg (· % s) h
  simp only [Nat.mul_comm _ s, Nat.mul_add_div hs, Nat.mul_add_mod, Nat.div_eq_of_lt hr,
    Nat.div_eq_of_lt hr', Nat.mod_eq_of_lt hr, Nat.mod_eq_of_lt hr', Nat.add_zero] at hdiv hmod
  exact ⟨hdiv, hmod⟩

/-- Where the aligned middle starts and how many sectors it has. The head must not be longer than
the span. -/
theorem stride_partition {offset len : Nat} (hs : 0 < s)
    (hfit : offset % s ≠ 0 → s ≤ offset % s + len) :
    ∃ first count, offset + (s - offset % s) % s = first * s ∧
      len = (s - offset % s) % s + count * s + (offset + len) % s ∧
      first + count = (offset + len) / s ∧
      first = offset / s + if offset % s = 0 then 0 else 1 := by
  have hoff := Nat.div_add_mod offset s
  have hend := Nat.div_add_mod (offset + len) s
  have hmod := Nat.mod_lt offset hs
  generalize hq : offset / s = q at *
  generalize hq' : (offset + len) / s = q' at *
  rw [Nat.mul_comm] at hoff hend
  by_cases hf : offset % s = 0
  · have hle : q ≤ q' := by
      rw [← hq, ← hq']
      exact Nat.div_le_div_right (Nat.le_add_right _ _)
    have hmul : q' * s = q * s + (q' - q) * s := by
      rw [← Nat.add_mul, Nat.add_sub_cancel' hle]
    refine ⟨q, q' - q, ?_, ?_, by omega, by simp [hf]⟩
    · simp only [hf, Nat.sub_zero, Nat.mod_self, Nat.add_zero] at hoff ⊢
      omega
    · simp only [hf, Nat.sub_zero, Nat.mod_self, Nat.zero_add] at hoff ⊢
      omega
  · have hhead : (s - offset % s) % s = s - offset % s := Nat.mod_eq_of_lt (by omega)
    have hle : q + 1 ≤ q' := by
      rw [← hq', Nat.le_div_iff_mul_le hs, Nat.add_mul, Nat.one_mul]
      omega
    have hmul : q' * s = q * s + s + (q' - (q + 1)) * s := by
      rw [show q * s + s = (q + 1) * s by ring, ← Nat.add_mul, Nat.add_sub_cancel' hle]
    refine ⟨q + 1, q' - (q + 1), ?_, ?_, by omega, by simp [hf]⟩
    · rw [hhead, Nat.add_mul, Nat.one_mul]
      omega
    · rw [hhead]
      omega

/-- The middle stride as the code computes it, when the head fits into the span. -/
theorem mid_stride_eq {offset len : Nat} (hs : 0 < s) (hlen : len < 2 ^ 31)
    (hfit : offset % s ≠ 0 → s ≤ offset % s + len) :
    wsub (wsub len ((s - offset % s) % s)) ((offset + len) % s) =
      len - (s - offset % s) % s - (offset + len) % s := by
  obtain ⟨_, _, _, hpart, _⟩ := stride_partition hs hfit
  have hhead : wsub len ((s - offset % s) % s) = len - (s - offset % s) % s :=
    wsub_of_le (by omega) (by omega)
  rw [hhead, wsub_of_le (by omega) (by omega)]

end LudOS
