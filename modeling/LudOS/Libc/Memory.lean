import LudOS.Lib.Bytes

/-!
# Copying memory

`memmove`, `strncat` and the routines behind `aligned_memcpy` and `aligned_memsetl` of
`libc/string`. Addresses are numbers that do not wrap around, as for the ranges that the functions
can be called with. A string is the list of its bytes before the zero.
-/

namespace LudOS.Libc

open Lib

section

variable (dst src : Nat)

/-- The loop of `memmove` from the front: `left` bytes from index `i` on. -/
def copyForward : (left i : Nat) → Bytes → Bytes
  | 0, _, memory => memory
  | left + 1, i, memory =>
    copyForward left (i + 1) (Function.update memory (dst + i) (memory (src + i)))

/-- The loop of `memmove` from the back. -/
def copyBackward : (i : Nat) → Bytes → Bytes
  | 0, memory => memory
  | i + 1, memory => copyBackward i (Function.update memory (dst + i) (memory (src + i)))

/-- `memmove`: the memory that it leaves and the pointer that it returns. -/
def memmove (size : Nat) (memory : Bytes) : Bytes × Nat :=
  (if dst < src then copyForward dst src size 0 memory else copyBackward dst src size memory, dst)

variable {dst src}

/-- A forward copy overwrites no byte that it has still to read if it goes down, or if the ranges
are apart. -/
theorem copyForward_apply {left i : Nat} (h : dst < src ∨ src + (i + left) ≤ dst) (memory : Bytes)
    (a : Nat) : copyForward dst src left i memory a =
      if dst + i ≤ a ∧ a < dst + i + left then memory (src + (a - dst)) else memory a := by
  induction left generalizing i memory with
  | zero => exact (if_neg (by omega)).symm
  | succ left ih =>
    rw [copyForward, ih (by omega)]
    grind

theorem copyBackward_apply (h : src ≤ dst) (i : Nat) (memory : Bytes) (a : Nat) :
    copyBackward dst src i memory a =
      if dst ≤ a ∧ a < dst + i then memory (src + (a - dst)) else memory a := by
  induction i generalizing memory with
  | zero => exact (if_neg (by omega)).symm
  | succ i ih =>
    rw [copyBackward, ih]
    grind

/-- `memmove` writes what the source held before, and nothing else. -/
theorem memmove_eq (dst src size : Nat) (memory : Bytes) :
    memmove dst src size memory = (memory.splice dst size (memory.view src), dst) := by
  refine Prod.ext (funext fun a => ?_) rfl
  unfold memmove Bytes.splice
  split
  case isTrue h => grind [copyForward_apply (.inl h), Bytes.view_apply]
  case isFalse h => grind [copyBackward_apply (Nat.not_lt.mp h), Bytes.view_apply]

end

/-! ## Routines for aligned buffers -/

section

variable {dst src n block count dest source : Nat}

/-- `_naive_memcpy`. -/
def naiveMemcpy (dst src size : Nat) (memory : Bytes) : Bytes × Nat :=
  (copyForward dst src size 0 memory, dst)

/-- The loop that copies whole blocks. It returns where it has stopped in both buffers. -/
def copyBlocks (block : Nat) : (count dest source : Nat) → Bytes → Bytes × Nat × Nat
  | 0, dest, source, memory => (memory, dest, source)
  | count + 1, dest, source, memory =>
    copyBlocks block count (dest + block) (source + block)
      (memory.splice dest block (memory.view source))

/-- Copying by blocks, and the bytes that are left over one by one. -/
def blockMemcpy (block dest source len : Nat) (memory : Bytes) : Bytes × Nat :=
  let (memory, dest, source) := copyBlocks block (len / block) dest source memory
  (if len % block ≠ 0 then (naiveMemcpy dest source (len % block) memory).1 else memory, dest)

/-- `_memcpy_mmx`. -/
def memcpyMmx : (dest source len : Nat) → Bytes → Bytes × Nat := blockMemcpy 64

/-- `_aligned_memcpy_sse2`. -/
def alignedMemcpySse2 : (dest source len : Nat) → Bytes → Bytes × Nat := blockMemcpy 128

/-- A loop that stores `len` bytes in each of its passes. -/
def storeEvery (len : Nat) (store : Nat → Bytes → Bytes) : (count dest : Nat) → Bytes → Bytes
  | 0, _, memory => memory
  | count + 1, dest, memory => storeEvery len store count (dest + len) (store dest memory)

/-- `memsetl`. -/
def memsetl (buf value size : Nat) (memory : Bytes) : Bytes × Nat :=
  (storeEvery 4 (fun dest memory => memory.putU32 dest value) (size / 4) buf memory, buf)

/-- `_aligned_memsetl_sse2`. -/
def alignedMemsetlSse2 (dest val n : Nat) (memory : Bytes) : Bytes × Nat :=
  let xmm0 := (memsetl 0 val 16 fun _ => 0).1
  let storeBlock := storeEvery 16 (fun dest memory => memory.splice dest 16 xmm0) 8
  (storeEvery 128 storeBlock (n / 128) dest memory, dest)

theorem naiveMemcpy_eq (h : dst + n ≤ src ∨ src + n ≤ dst) (memory : Bytes) :
    naiveMemcpy dst src n memory = (memory.splice dst n (memory.view src), dst) := by
  refine Prod.ext (funext fun a => ?_) rfl
  cases n with
  | zero => rw [Bytes.splice_zero]; rfl
  | succ n =>
    unfold naiveMemcpy Bytes.splice
    grind [copyForward_apply, Bytes.view_apply]

theorem copyBlocks_eq (h : dest + block * count ≤ source ∨ source + block * count ≤ dest)
    (memory : Bytes) : copyBlocks block count dest source memory =
      (memory.splice dest (block * count) (memory.view source), dest + block * count,
        source + block * count) := by
  induction count generalizing dest source memory with
  | zero => simp [copyBlocks]
  | succ count ih =>
    rw [Nat.mul_succ] at h ⊢
    rw [copyBlocks, ih (by omega)]
    refine Prod.ext ?_ (Prod.ext (by dsimp only; omega) (by dsimp only; omega))
    have hsource : ∀ i < block * count,
        (memory.splice dest block (memory.view source)).view (source + block) i =
          (memory.view source).view block i := fun i hi => by
      rw [Bytes.view_apply, Bytes.splice_outside (by omega), Bytes.view_apply, Bytes.view_apply,
        Nat.add_assoc]
    dsimp only
    rw [Bytes.splice_congr hsource, Bytes.splice_append, Nat.add_comm]

/-- Copying by blocks copies the bytes, but returns the end of the last whole block. -/
theorem blockMemcpy_eq (h : dst + n ≤ src ∨ src + n ≤ dst) (memory : Bytes) :
    blockMemcpy block dst src n memory =
      (memory.splice dst n (memory.view src), dst + block * (n / block)) := by
  have hdiv := Nat.div_add_mod n block
  have happend := Bytes.splice_append memory (memory.view src) dst (block * (n / block)) (n % block)
  rw [hdiv] at happend
  rw [blockMemcpy, copyBlocks_eq (by omega)]
  refine Prod.ext ?_ rfl
  dsimp only
  split
  case isFalse hrest =>
    rw [not_not.mp hrest, Bytes.splice_zero] at happend
    exact happend
  case isTrue =>
    rw [naiveMemcpy_eq (by omega), ← happend]
    refine Bytes.splice_congr fun i hi => ?_
    rw [Bytes.view_apply, Bytes.splice_outside (by omega), Bytes.view_apply, Bytes.view_apply,
      Nat.add_assoc]

theorem storeEvery_eq {len : Nat} {store : Nat → Bytes → Bytes} {src : Bytes}
    (hstore : ∀ dest memory, store dest memory = memory.splice dest len src)
    (hsrc : src.view len = src) (count dest : Nat) (memory : Bytes) :
    storeEvery len store count dest memory = memory.splice dest (len * count) src := by
  induction count generalizing dest memory with
  | zero => simp [storeEvery]
  | succ count ih =>
    have happend := Bytes.splice_append memory src dest len (len * count)
    rw [hsrc] at happend
    rw [storeEvery, ih, hstore, happend, Nat.mul_succ, Nat.add_comm]

/-- The bytes of a word over and over. -/
def repeated (value : Nat) : Bytes := fun i => Bytes.ofNat value (i % 4)

theorem view_repeated (value : Nat) {len : Nat} (hlen : len % 4 = 0) :
    (repeated value).view len = repeated value := by
  funext i
  rw [Bytes.view_apply, repeated, repeated, Nat.add_mod, hlen, Nat.zero_add, Nat.mod_mod]

theorem memsetl_eq (buf value size : Nat) (memory : Bytes) :
    memsetl buf value size memory = (memory.splice buf (4 * (size / 4)) (repeated value), buf) := by
  refine Prod.ext (storeEvery_eq (fun dest memory => ?_) (view_repeated value rfl) _ _ _) rfl
  exact Bytes.splice_congr fun i hi => by rw [repeated, Nat.mod_eq_of_lt hi]

theorem alignedMemsetlSse2_eq (dest val n : Nat) (memory : Bytes) :
    alignedMemsetlSse2 dest val n memory =
      (memory.splice dest (128 * (n / 128)) (repeated val), dest) := by
  refine Prod.ext (storeEvery_eq (fun dest memory => ?_) (view_repeated val rfl) _ _ _) rfl
  refine storeEvery_eq (fun dest memory => ?_) (view_repeated val rfl) 8 dest memory
  rw [memsetl_eq]
  have hxmm0 : ∀ i < 16, Bytes.splice (fun _ => 0) 0 (4 * (16 / 4)) (repeated val) i =
      repeated val i := fun i hi => Bytes.splice_inside (Nat.zero_le i) (by omega)
  exact Bytes.splice_congr hxmm0

/-- The routines copy and fill alike, but for two things: the block copies return where the last
whole block ends, and the block fill leaves out what is behind it. -/
theorem aligned_routines_agree_iff (h : dst + n ≤ src ∨ src + n ≤ dst) (value : Nat)
    (memory : Bytes) :
    ((memcpyMmx dst src n memory).1 = (naiveMemcpy dst src n memory).1 ∧
      (alignedMemcpySse2 dst src n memory).1 = (naiveMemcpy dst src n memory).1) ∧
    ((memcpyMmx dst src n memory).2 = dst ↔ n < 64) ∧
    ((alignedMemcpySse2 dst src n memory).2 = dst ↔ n < 128) ∧
    (n % 4 = 0 → ((alignedMemsetlSse2 dst value n memory).1 = (memsetl dst value n memory).1 ↔
      ∀ i < n, 128 * (n / 128) ≤ i → memory (dst + i) = Bytes.ofNat value (i % 4))) := by
  rw [memcpyMmx, alignedMemcpySse2, blockMemcpy_eq h, blockMemcpy_eq h, naiveMemcpy_eq h,
    alignedMemsetlSse2_eq, memsetl_eq]
  refine ⟨⟨rfl, rfl⟩, by dsimp only; omega, by dsimp only; omega, fun hn => ?_⟩
  have hle : 128 * (n / 128) ≤ n := Nat.mul_div_le n 128
  have happend := Bytes.splice_append memory (repeated value) dst (128 * (n / 128))
    (n - 128 * (n / 128))
  rw [Nat.add_sub_cancel' hle] at happend
  dsimp only
  rw [Nat.mul_div_cancel' (Nat.dvd_of_mod_eq_zero hn), ← happend]
  constructor
  · intro heq i hi hrest
    have hat := congrFun heq (dst + i)
    rw [Bytes.splice_outside (by omega), happend, Bytes.splice_inside (by omega) (by omega),
      Nat.add_sub_cancel_left] at hat
    exact hat
  · intro hrest
    refine (Bytes.splice_self fun i hi => ?_).symm
    rw [Bytes.splice_outside (by omega), Bytes.view_apply, repeated, Nat.add_assoc]
    exact (hrest _ (by omega) (Nat.le_add_right _ i)).symm

theorem aligned_routines_agree_short : (memcpyMmx 0 64 63 fun _ => 0).2 = 0 ∧
    (alignedMemsetlSse2 0 7 128 fun _ => 0).1 = (memsetl 0 7 128 fun _ => 0).1 := by
  refine ⟨(aligned_routines_agree_iff (.inl (by decide)) 7 _).2.1.mpr (by decide),
    ((aligned_routines_agree_iff (.inl (Nat.le_refl (0 + 128))) 7 _).2.2.2 rfl).mpr ?_⟩
  intro i hi hrest
  omega

/-- The pointer behind a block is returned, and a word is not stored. -/
theorem aligned_routines_differ : (memcpyMmx 0 64 64 fun _ => 0).2 = 64 ∧
    (memsetl 0 7 4 fun _ => 0).1 0 = 7 ∧ (alignedMemsetlSse2 0 7 4 fun _ => 0).1 0 = 0 :=
  ⟨rfl, rfl, rfl⟩

end

/-! ## Appending -/

/-- The second loop of `strncat`, at the end of the first string. `none` is an access behind the
buffer. -/
def appendAt : (s1 s2 : List UInt8) → (n : BitVec 32) → Option (List UInt8)
  | [], _, _ => none
  | _ :: s1, [], _ => some (0 :: s1)
  | _ :: s1, c :: s2, n =>
    if n - 1 < 0 then some (0 :: s1) else (appendAt s1 s2 (n - 1)).map (c :: ·)

/-- `strncat` on the bytes of the buffer. -/
def strncat (s2 : List UInt8) (n : BitVec 32) : (s1 : List UInt8) → Option (List UInt8)
  | [] => none
  | c :: s1 => if c ≠ 0 then (strncat s2 n s1).map (c :: ·) else appendAt (c :: s1) s2 n

variable {text room s2 : List UInt8}

/-- An unsigned number is never below zero. -/
theorem appendAt_eq (room s2 : List UInt8) (c : UInt8) (n : BitVec 32) : appendAt (c :: room) s2 n =
      if s2.length ≤ room.length then some (s2 ++ 0 :: room.drop s2.length) else none := by
  induction s2 generalizing c room n with
  | nil => rfl
  | cons d s2 ih =>
    cases room with
    | nil => simp [appendAt]
    | cons e room => by_cases h : s2.length ≤ room.length <;> simp [appendAt, ih, h]

theorem strncat_text (htext : 0 ∉ text) (n : BitVec 32) :
    strncat s2 n (text ++ 0 :: room) = (appendAt (0 :: room) s2 n).map (text ++ ·) := by
  induction text with
  | nil => simp [strncat]
  | cons c text ih =>
    rw [List.mem_cons, not_or] at htext
    simp [strncat, ih htext.2, Ne.symm htext.1, Function.comp_def]

/-- The limit is never reached, so that the whole second string is appended. -/
theorem strncat_appends_iff (htext : 0 ∉ text) (hs2 : 0 ∉ s2) (n : BitVec 32)
    (hroom : min n.toNat s2.length ≤ room.length) :
    strncat s2 n (text ++ 0 :: room) =
      some (text ++ s2.take n.toNat ++ 0 :: room.drop (min n.toNat s2.length)) ↔
        s2.length ≤ n.toNat := by
  rw [strncat_text htext, appendAt_eq]
  split
  case isTrue =>
    rw [Option.map_some, Option.some.injEq, List.append_assoc, List.append_cancel_left_eq]
    constructor
    · intro heq
      by_contra hlt
      rw [Nat.not_le] at hlt
      have hat := congrArg (·[n.toNat]?) heq
      simp [List.getElem?_append, hlt, hlt.le] at hat
      exact hs2 (hat ▸ List.getElem_mem hlt)
    · intro hle
      rw [List.take_of_length_le hle, Nat.min_eq_right hle]
  case isFalse hshort => simp; omega

theorem strncat_short : strncat [7] 2 [5, 0, 1, 1] = some [5, 7, 0, 1] :=
  (@strncat_appends_iff [5] [1, 1] [7] (by decide) (by decide) 2 (by decide)).mpr (by decide)

/-- More than one character is appended. -/
theorem strncat_exceeds_limit : strncat [7, 8] 1 [5, 0, 1, 1] = some [5, 7, 8, 0] := by decide

end LudOS.Libc
