import Mathlib.Data.Nat.Bitwise
import Mathlib.Data.List.ReduceOption

/-!
# UTF-8

The model of `unicode/utf8decoder.cpp` and `unicode/utf32decoder.cpp`. Characters are numbers,
with the remainder where `char32_t` or `char` truncates. The decoder reads what the standard
writes, but the encoder masks the bits of a continuation byte without shifting them down, so that
most characters from U+0800 on come back as others.
-/

namespace LudOS.Unicode

/-- `kernel_string::operator+=` of a character. The character is appended as a string that ends at
its first zero. -/
def appendChar {α : Type} [DecidableEq α] [OfNat α 0] (s : List α) (c : α) : List α :=
  if c = 0 then s else s ++ [c]

/-- `UTF8Decoder`. -/
structure UTF8Decoder where
  completed : Bool := false
  currentLength : Nat := 0
  length : Nat := 0
  current : Nat := 0
  deriving DecidableEq

namespace UTF8Decoder

/-- `UTF8Decoder::get_length`. -/
def getLength (firstByte : Nat) : Nat :=
  if firstByte >>> 3 = 0x1e then 4
  else if firstByte >>> 3 >>> 1 = 0xe then 3
  else if firstByte >>> 3 >>> 1 >>> 1 = 0x6 then 2
  else 1

/-- The bits of a continuation byte come after those collected so far. -/
def next (current byte : Nat) : Nat := current <<< 6 % 2 ^ 32 ||| (byte ^^^ 0x80)

/-- The end of `UTF8Decoder::feed`. -/
def advance (d : UTF8Decoder) : UTF8Decoder :=
  let d := { d with currentLength := d.currentLength + 1 }
  if d.currentLength = d.length then { d with completed := true } else d

/-- `UTF8Decoder::feed`. -/
def feed (d : UTF8Decoder) (byte : Nat) : UTF8Decoder :=
  if d.completed then d
  else if d.currentLength = 0 then
    let d := { d with length := getLength byte, current := byte }
    if d.length = 1 then { d with completed := true }
    else if d.length = 4 then advance { d with current := d.current ^^^ 0xf0 }
    else if d.length = 3 then advance { d with current := d.current ^^^ 0xe0 }
    else if d.length = 2 then advance { d with current := d.current ^^^ 0xc0 }
    else advance d
  else advance { d with current := next d.current byte }

/-- `UTF8Decoder::ready`. -/
def ready (d : UTF8Decoder) : Bool := d.completed

/-- `UTF8Decoder::invalid`. -/
def invalid : Nat := 0xfffd

/-- `UTF8Decoder::reset`, which sets every field. -/
def reset : UTF8Decoder := { current := invalid }

/-- `UTF8Decoder::spit`. -/
def spit (d : UTF8Decoder) : Nat × UTF8Decoder :=
  if d.completed then (d.current, reset) else (invalid, d)

/-- What is spat out after each byte, if the decoder is ready then, and the decoder at the end. -/
def outputs (d : UTF8Decoder) : List UInt8 → List (Option Nat) × UTF8Decoder
  | [] => ([], d)
  | byte :: bytes =>
    let d := d.feed byte.toNat
    let out := if d.ready then (some d.spit.1, d.spit.2) else (none, d)
    (out.1 :: (outputs out.2 bytes).1, (outputs out.2 bytes).2)

end UTF8Decoder

open UTF8Decoder

/-- The loop of `u8_decode`. -/
def u8DecodeLoop (d : UTF8Decoder) (kresult : List Nat) : List UInt8 → List Nat
  | [] => kresult
  | c :: str =>
    let d := d.feed c.toNat
    if d.ready then u8DecodeLoop d.spit.2 (appendChar kresult d.spit.1) str
    else u8DecodeLoop d kresult str

/-- `u8_decode`. -/
def u8Decode (str : List UInt8) : List Nat := u8DecodeLoop {} [] str

/-- The loop of `decode_utf32`. -/
def trailing (ch : Nat) : Nat → List UInt8 → List UInt8
  | i + 2, utf8 =>
    trailing ch (i + 1) (appendChar utf8 (.ofNat (0x80 ||| (ch &&& 0x3f <<< (i * 6)))))
  | _, utf8 => utf8

/-- `decode_utf32`. -/
def decodeUtf32 (ch : Nat) : List UInt8 :=
  if ch < 0x80 then appendChar [] (.ofNat ch)
  else if ch < 0x800 then trailing ch 2 (appendChar [] (.ofNat (0xc0 ||| ch >>> 6)))
  else if ch < 0x10000 then trailing ch 3 (appendChar [] (.ofNat (0xe0 ||| ch >>> 12)))
  else if ch < 0x200000 then trailing ch 4 (appendChar [] (.ofNat (0xf0 ||| ch >>> 18)))
  else []

/-! ## Characters one after the other -/

/-- The bytes are those of one character: it is spat out after the last of them, whatever
follows. -/
def Decodes (bytes : List UInt8) (c : Nat) : Prop := ∀ rest, outputs reset (bytes ++ rest) =
  (List.replicate (bytes.length - 1) none ++ some c :: (outputs reset rest).1,
    (outputs reset rest).2)

section

variable {a b c d : UInt8} {v : Nat}

theorem decodes_one (h : getLength a.toNat = 1) (hv : a.toNat = v) : Decodes [a] v := by
  subst hv
  intro rest
  simp [outputs, feed, reset, ready, spit, h]

theorem decodes_two (h : getLength a.toNat = 2) (hv : next (a.toNat ^^^ 0xc0) b.toNat = v) :
    Decodes [a, b] v := by
  intro rest
  simp [outputs, feed, reset, ready, spit, advance, h, hv]

theorem decodes_three (h : getLength a.toNat = 3)
    (hv : next (next (a.toNat ^^^ 0xe0) b.toNat) c.toNat = v) : Decodes [a, b, c] v := by
  intro rest
  simp [outputs, feed, reset, ready, spit, advance, h, hv, List.replicate]

theorem decodes_four (h : getLength a.toNat = 4)
    (hv : next (next (next (a.toNat ^^^ 0xf0) b.toNat) c.toNat) d.toNat = v) :
    Decodes [a, b, c, d] v := by
  intro rest
  simp [outputs, feed, reset, ready, spit, advance, h, hv, List.replicate]

end

theorem outputs_flatMap {α : Type} {encode : α → List UInt8} {value : α → Nat} (cs : List α)
    (h : ∀ c ∈ cs, Decodes (encode c) (value c)) : outputs reset (cs.flatMap encode) =
      (cs.flatMap fun c => List.replicate ((encode c).length - 1) none ++ [some (value c)],
        reset) := by
  induction cs with
  | nil => rfl
  | cons c cs ih =>
    obtain ⟨hc, hcs⟩ := List.forall_mem_cons.mp h
    rw [List.flatMap_cons, hc, ih hcs, List.flatMap_cons, List.append_assoc]
    rfl

theorem u8DecodeLoop_eq (d : UTF8Decoder) (kresult : List Nat) (str : List UInt8) :
    u8DecodeLoop d kresult str = kresult ++ ((outputs d str).1.reduceOption.filter (· ≠ 0)) := by
  induction str generalizing d kresult with
  | nil => simp [u8DecodeLoop, outputs]
  | cons c str ih =>
    rw [u8DecodeLoop, outputs]
    cases (d.feed c.toNat).ready with
    | false => exact ih _ _
    | true =>
      refine (ih _ _).trans ?_
      rw [appendChar]
      split <;> simp_all [List.reduceOption_cons_of_some]

/-- A zero character is lost at the end, where the string is put together. -/
theorem u8Decode_flatMap {α : Type} {encode : α → List UInt8} {value : α → Nat} (cs : List α)
    (h : ∀ c ∈ cs, Decodes (encode c) (value c)) :
    u8Decode (cs.flatMap encode) = (cs.map value).filter (· ≠ 0) := by
  have hfresh : ∀ str, (outputs {} str).1 = (outputs reset str).1 := by
    intro str
    cases str <;> rfl
  have hsome : (cs.flatMap fun c => List.replicate ((encode c).length - 1) none ++
      [some (value c)]).reduceOption = cs.map value := by
    clear h
    induction cs with
    | nil => rfl
    | cons c cs ih => simp [List.reduceOption_append, ih]
  rw [u8Decode, u8DecodeLoop_eq, hfresh, outputs_flatMap cs h, hsome, List.nil_append]

/-! ## The decoder and the standard -/

theorem toNat_byte {n : Nat} (h : n < 256) : (UInt8.ofNat n).toNat = n := by
  rw [UInt8.toNat_ofNat', Nat.mod_eq_of_lt h]

/-- The first byte says how long a character is, and has some of its bits. -/
theorem getLength_lead : (∀ x < 0x80, getLength x = 1) ∧
    (∀ x < 32, 0xc0 ||| x = x + 0xc0 ∧ getLength (x + 0xc0) = 2 ∧ (x + 0xc0) ^^^ 0xc0 = x) ∧
    (∀ x < 16, 0xe0 ||| x = x + 0xe0 ∧ getLength (x + 0xe0) = 3 ∧ (x + 0xe0) ^^^ 0xe0 = x) ∧
    (∀ x < 8, 0xf0 ||| x = x + 0xf0 ∧ getLength (x + 0xf0) = 4 ∧ (x + 0xf0) ^^^ 0xf0 = x) := by
  decide

/-- A continuation byte of the standard adds six bits. -/
theorem next_eq {current y : Nat} (hc : current < 2 ^ 26) (hy : y < 64) :
    next current (y + 0x80) = current * 64 + y := by
  have hbits : ∀ y < 64, (y + 0x80) ^^^ 0x80 = y := by decide
  rw [next, hbits y hy, Nat.shiftLeft_eq, Nat.mod_eq_of_lt (by omega), ← Nat.shiftLeft_eq,
    ← Nat.shiftLeft_add_eq_or_of_lt hy, Nat.shiftLeft_eq]

theorem toNat_lt (c : Char) : c.toNat < 0x110000 := by
  rcases c.valid with h | h
  · exact h.trans (by decide)
  · exact h.2

theorem decodes_utf8EncodeChar (c : Char) : Decodes (String.utf8EncodeChar c) c.toNat := by
  obtain ⟨hone, htwo, hthree, hfour⟩ := getLength_lead
  have hc : c.val.toNat < 0x110000 := toNat_lt c
  show Decodes _ c.val.toNat
  rw [String.utf8EncodeChar]
  generalize c.val.toNat = v at hc
  split
  case isTrue h =>
    apply decodes_one <;> rw [toNat_byte (by omega)]
    exact hone v (by omega)
  split
  case isTrue h =>
    obtain ⟨-, hlength, hlead⟩ := htwo (v / 64 % 32) (by omega)
    apply decodes_two <;> simp (disch := omega) only [toNat_byte, hlength, hlead, next_eq]
    omega
  split
  case isTrue h =>
    obtain ⟨-, hlength, hlead⟩ := hthree (v / 4096 % 16) (by omega)
    apply decodes_three <;> simp (disch := omega) only [toNat_byte, hlength, hlead, next_eq]
    omega
  case isFalse h =>
    obtain ⟨-, hlength, hlead⟩ := hfour (v / 262144 % 8) (by omega)
    apply decodes_four <;> simp (disch := omega) only [toNat_byte, hlength, hlead, next_eq]
    omega

/-- The characters come out one by one, each after its last byte, and the string lacks the zero
characters only. -/
theorem utf8_decoder_implements_standard (cs : List Char) :
    outputs reset (cs.flatMap String.utf8EncodeChar) = (cs.flatMap fun c =>
      List.replicate ((String.utf8EncodeChar c).length - 1) none ++ [some c.toNat], reset) ∧
    u8Decode (cs.flatMap String.utf8EncodeChar) = (cs.map Char.toNat).filter (· ≠ 0) :=
  ⟨outputs_flatMap cs fun c _ => decodes_utf8EncodeChar c,
    u8Decode_flatMap cs fun c _ => decodes_utf8EncodeChar c⟩

/-! ## The encoder -/

/-- What comes back for a character. -/
def garbled (c : Nat) : Nat :=
  if c < 0x800 then c
  else if c < 0x10000 then (c / 4096 ||| c / 64 % 2) * 4096 + c % 64
  else (c / 262144 * 64 + c / 64 % 2) * 4096 + c % 64

theorem garbled_eq_self {c : Nat} : garbled c = c ↔
    c < 0x800 ∨ c / 64 % 64 = 0 ∧ (c < 0x10000 ∨ c / 4096 % 64 = 0) := by
  rw [garbled]
  split
  case isTrue h => exact iff_of_true rfl (.inl h)
  split
  case isTrue hge h =>
    constructor
    · intro heq
      omega
    · rintro (hlt | ⟨hzero, -⟩)
      · omega
      · rw [show c / 64 % 2 = 0 by omega, Nat.or_zero]
        omega
  case isFalse => omega

theorem appendChar_or {s : List UInt8} {a x : Nat} (h : 0 < a % 2 ^ 8) :
    appendChar s (.ofNat (a ||| x)) = s ++ [.ofNat (a ||| x)] := by
  refine if_neg fun hzero => ?_
  have hbyte := congrArg UInt8.toNat hzero
  rw [UInt8.toNat_ofNat', Nat.or_mod_two_pow] at hbyte
  exact absurd (Nat.left_le_or.trans_eq hbyte) h.not_ge

theorem toNat_masked (c mask : Nat) : (UInt8.ofNat (0x80 ||| (c &&& mask))).toNat =
    0x80 ||| (c % 256 &&& mask % 256) := by
  rw [UInt8.toNat_ofNat', Nat.or_mod_two_pow, Nat.and_mod_two_pow]

/-- Of the bits of a middle byte, one ends up where the bits before it are. -/
theorem next_middle {current c : Nat} (hc : current < 2 ^ 26) :
    next current (0x80 ||| (c % 256 &&& 192)) = (current ||| c / 64 % 2) * 64 := by
  have hbits : ∀ y < 256, (0x80 ||| (y &&& 192)) ^^^ 0x80 = y / 64 % 2 * 64 := by decide +kernel
  rw [next, hbits _ (Nat.mod_lt _ (by decide)), Nat.shiftLeft_eq, Nat.mod_eq_of_lt (by omega),
    show c % 256 / 64 % 2 = c / 64 % 2 by omega]
  simp only [← Nat.shiftLeft_eq _ 6, Nat.shiftLeft_or_distrib]

theorem decodes_decodeUtf32 {c : Nat} (hpos : 0 < c) (hc : c < 0x200000) :
    Decodes (decodeUtf32 c) (garbled c) := by
  obtain ⟨hone, htwo, hthree, hfour⟩ := getLength_lead
  have hmask : ∀ y < 256, 0x80 ||| (y &&& 63) = y % 64 + 0x80 := by decide +kernel
  have hlast := hmask (c % 256) (Nat.mod_lt _ (by decide))
  rw [decodeUtf32, garbled]
  split
  case isTrue h =>
    have happend := @appendChar_or [] c 0 (by omega)
    rw [Nat.or_zero] at happend
    rw [happend, if_pos (by omega)]
    apply decodes_one <;> rw [toNat_byte (by omega)]
    exact hone c h
  simp only [trailing, appendChar_or, Nat.reduceMod, Nat.reducePow, Nat.reduceLT, List.nil_append,
    List.cons_append, Nat.shiftRight_eq_div_pow, Nat.reduceMul, Nat.reduceShiftLeft]
  split
  case isTrue h =>
    obtain ⟨hor, hlength, hlead⟩ := htwo (c / 64) (by omega)
    apply decodes_two <;> simp (disch := omega) only
      [hor, toNat_byte, toNat_masked, Nat.reduceMod, hlength, hlead, hlast, next_eq]
    omega
  split
  case isTrue h =>
    obtain ⟨hor, hlength, hlead⟩ := hthree (c / 4096) (by omega)
    have hsmall : c / 4096 ||| c / 64 % 2 < 2 ^ 4 := Nat.or_lt_two_pow (by omega) (by omega)
    apply decodes_three <;> simp (disch := omega) only
      [hor, toNat_byte, toNat_masked, Nat.reduceMod, hlength, hlead, hlast, next_eq, next_middle]
    omega
  case isFalse h =>
    obtain ⟨hor, hlength, hlead⟩ := hfour (c / 262144) (by omega)
    have hbit : c / 262144 * 64 ||| c / 64 % 2 = c / 262144 * 64 + c / 64 % 2 := by
      rw [← Nat.shiftLeft_eq _ 6, Nat.shiftLeft_add_eq_or_of_lt (by omega)]
    have hzero : next (c / 262144) 0x80 = c / 262144 * 64 := next_eq (by omega) (by decide)
    apply decodes_four <;> simp (disch := omega) only [hor, toNat_byte, toNat_masked,
      Nat.reduceMod, Nat.and_zero, Nat.or_zero, hlength, hlead, hzero, hbit, hlast, next_eq,
      next_middle]
    omega

/-- What is encoded and decoded comes back just for these characters. -/
theorem utf8_roundtrip_iff (cs : List Char) (hcs : ∀ c ∈ cs, c ≠ '\x00') :
    u8Decode (cs.flatMap fun c => decodeUtf32 c.toNat) = cs.map Char.toNat ↔ ∀ c ∈ cs,
      c.toNat < 0x800 ∨
        c.toNat / 64 % 64 = 0 ∧ (c.toNat < 0x10000 ∨ c.toNat / 4096 % 64 = 0) := by
  have hpos : ∀ c ∈ cs, 0 < c.toNat := fun c hc =>
    Nat.pos_of_ne_zero fun hzero => hcs c hc (Char.toNat_inj.mp hzero)
  have hdecodes : ∀ c ∈ cs, Decodes (decodeUtf32 c.toNat) (garbled c.toNat) := fun c hc =>
    decodes_decodeUtf32 (hpos c hc) ((toNat_lt c).trans (by decide))
  rw [u8Decode_flatMap cs hdecodes]
  simp only [← garbled_eq_self]
  constructor
  · intro h
    have hlength := congrArg List.length h
    rw [List.length_map, ← List.length_map (fun c : Char => garbled c.toNat),
      List.length_filter_eq_length_iff] at hlength
    rw [List.filter_eq_self.mpr hlength] at h
    exact List.map_inj_left.mp h
  · intro h
    rw [List.map_congr_left h, List.filter_eq_self]
    simpa using fun c hc => (hpos c hc).ne'

/-- U+00E9 and U+3000. -/
theorem utf8_roundtrip_sample : u8Decode (['é', '\u3000'].flatMap fun c => decodeUtf32 c.toNat) =
    [0xe9, 0x3000] := by
  -- element by element, since there are too many characters to try them all
  refine (utf8_roundtrip_iff ['é', '\u3000'] ?_).mpr ?_ <;> rw [List.forall_mem_cons,
    List.forall_mem_singleton] <;> decide

/-- U+20AC comes back as U+202C. -/
theorem utf8_roundtrip_euro : u8Decode (['€'].flatMap fun c => decodeUtf32 c.toNat) = [0x202c] ∧
    ['€'].map Char.toNat = [0x20ac] := by
  decide

end LudOS.Unicode
