import Mathlib.Data.List.Basic
import LudOS.Tasking.PageMapping

/-!
# Registers and tables of the platform

What the kernel stores in the configuration space of PCI devices, `drivers/pci/pci.cpp`, and in the
registers for memory types, `i686/cpu/mtrr.cpp`, and how it looks for a structure in the tables of
the firmware, `i686/pc/smbios/smbios.cpp`.

Halves of a word of the configuration space are written right, single bytes are not
(`pci_accessors_agree_iff`). A range of memory that has been set is never reported as enabled
(`mtrr_covers_iff`), and no table of the firmware is ever walked (`smbios_finds_nothing`).
-/

namespace LudOS.Platform

open Lib
open Tasking.PageMapping (kernelVirtualBase)

/-! ## PCI configuration space -/

/-- The words of a device's configuration space, as `read32` and `write32` reach them. -/
abbrev ConfigSpace := Nat → BitVec 32

namespace ConfigSpace

/-- `read16`. The lower half of a word has the larger offset. -/
def read16 (c : ConfigSpace) (offset : Nat) : BitVec 16 :=
  let val := c (offset / 4)
  if offset % 4 ≠ 0 then val.setWidth 16 else (val >>> 16).setWidth 16

/-- `read8`. -/
def read8 (c : ConfigSpace) (offset : Nat) : BitVec 8 :=
  (c (offset / 4) >>> (8 * (offset % 4))).setWidth 8

/-- `write16`; `none` is the assertion on the offset. -/
def write16 (c : ConfigSpace) (offset : Nat) (val : BitVec 16) : Option ConfigSpace :=
  if offset % 2 = 0 then
    let mask := 0xFFFF#32 <<< (8 * (offset % 4))
    some (Function.update c (offset / 4)
      (c (offset / 4) &&& mask ||| val.setWidth 32 <<< (16 - 8 * (offset % 4))))
  else none

/-- `write8`. The shift of the value by 32 bits at offset 0 is taken modulo the width, as the
processor does. -/
def write8 (c : ConfigSpace) (offset : Nat) (val : BitVec 8) : Option ConfigSpace :=
  if offset % 2 = 0 then
    let mask := 0xFF#32 <<< (8 * (offset % 4))
    some (Function.update c (offset / 4)
      (c (offset / 4) &&& mask ||| val.setWidth 32 <<< ((32 - 8 * (offset % 4)) % 32)))
  else none

/-- The bits of a number whose lowest bits are set. -/
theorem getLsbD_ones (n i : Nat) :
    (BitVec.ofNat 32 (2 ^ n - 1)).getLsbD i = (decide (i < 32) && decide (i < n)) := by
  simp [BitVec.getLsbD_ofNat, Nat.testBit_two_pow_sub_one]

/-- What `write8` leaves in each byte. -/
theorem read8_write8 (c : ConfigSpace) {o : Nat} (heven : o % 2 = 0) (v : BitVec 8) :
    ∃ c', c.write8 o v = some c' ∧ ∀ o', c'.read8 o' =
      if o' = o then c.read8 o ||| v else if o' / 4 = o / 4 then 0 else c.read8 o' := by
  have hshift : (32 - 8 * (o % 4)) % 32 = 8 * (o % 4) := by omega
  have hones := getLsbD_ones 8
  refine ⟨_, if_pos heven, fun o' => ?_⟩
  simp only [hshift, read8]
  ext i hi
  grind

/-- `write16` stores the half of the word that `read16` returns. -/
theorem read_write16 (c : ConfigSpace) {o : Nat} (heven : o % 2 = 0) (v : BitVec 16) :
    ∃ c', c.write16 o v = some c' ∧ c'.read16 o = v ∧
      ∀ o', o' / 4 = o / 4 ∧ o' % 4 / 2 ≠ o % 4 / 2 ∨ c'.read8 o' = c.read8 o' := by
  have hones := getLsbD_ones 16
  refine ⟨_, if_pos heven, ?_, fun o' => or_iff_not_imp_left.mpr fun hout => ?_⟩
  · simp only [read16, Function.update_self]
    ext i hi
    grind
  · unfold read8
    ext i hi
    grind

/-- `write16` is always right at even offsets. `write8` clears the other bytes of the word, adds
bits to the byte it stores, and refuses odd offsets. -/
theorem pci_accessors_agree_iff (c : ConfigSpace) (o : Nat) (v : BitVec 8) (v' : BitVec 16) :
    ((∃ c', c.write8 o v = some c' ∧ c'.read8 o = v ∧ ∀ o', o' ≠ o → c'.read8 o' = c.read8 o') ↔
      o % 2 = 0 ∧ c.read8 o ||| v = v ∧ ∀ o', o' ≠ o → o' / 4 = o / 4 → c.read8 o' = 0) ∧
    (o % 2 = 0 → ∃ c', c.write16 o v' = some c' ∧ c'.read16 o = v' ∧
      ∀ o', o' / 4 = o / 4 ∧ o' % 4 / 2 ≠ o % 4 / 2 ∨ c'.read8 o' = c.read8 o') := by
  refine ⟨?_, fun heven => c.read_write16 heven v'⟩
  by_cases heven : o % 2 = 0
  · obtain ⟨c', hwrite, hread⟩ := c.read8_write8 heven v
    simp only [hwrite, Option.some.injEq, exists_eq_left', hread, heven, true_and]
    grind
  · simp [write8, heven]

/-- A byte at an odd offset is refused, and one at an even offset clears the next. -/
theorem pci_byte_not_written : write8 (fun _ => 0) 1 5 = none ∧
    ∃ c', write8 (fun _ => 0x0300) 0 5 = some c' ∧ c'.read8 1 = 0 ∧
      read8 (fun _ => 0x0300) 1 = 3 :=
  ⟨rfl, _, rfl, by decide, by decide⟩

end ConfigSpace

/-! ## Memory type ranges -/

/-- `mtrr::Type`. -/
inductive MtrrType where
  | uc | wc | wt | wp | wb
  deriving DecidableEq, Repr

/-- The number of the type in the base register. -/
def MtrrType.bits : MtrrType → BitVec 64
  | .uc => 0x00
  | .wc => 0x01
  | .wt => 0x04
  | .wp => 0x05
  | .wb => 0x06

/-- The registers of the variable ranges, how many of them there are, and the size of physical
addresses. -/
structure Mtrrs where
  available : Nat
  physBase : Nat → BitVec 64
  physMask : Nat → BitVec 64
  maxPhysAddr : Nat

/-- `valid_flag`. -/
def validFlag : BitVec 64 := 1 <<< 11

/-- The bits of a page address. -/
def addressBits (x : BitVec 64) : BitVec 64 := x >>> 12 <<< 12

/-- The size as `set_variable_mtrr` rounds it to a power of two. -/
def roundUp (size : BitVec 64) : BitVec 64 :=
  let size := size - 1
  let size := size ||| size >>> 1
  let size := size ||| size >>> 2
  let size := size ||| size >>> 4
  let size := size ||| size >>> 8
  let size := size ||| size >>> 16
  size + 1

namespace Mtrrs

/-- `find_free_var_mtrr`. -/
def findFreeVarMtrr (m : Mtrrs) : Option Nat :=
  (List.range m.available).find? fun i => m.physMask i &&& validFlag = 0

/-- `set_variable_mtrr`. -/
def setVariableMtrr (m : Mtrrs) (baseAddr size : BitVec 64) (type : MtrrType) :
    Option (Nat × Mtrrs) :=
  m.findFreeVarMtrr.map fun freeMtrr =>
    let base := addressBits baseAddr ||| type.bits
    let mask := addressBits (-roundUp size &&& (1 <<< m.maxPhysAddr - 1)) ||| validFlag
    (freeMtrr, { m with
      physBase := Function.update m.physBase freeMtrr base
      physMask := Function.update m.physMask freeMtrr mask })

/-- `range_enabled`. -/
def rangeEnabled (m : Mtrrs) (id : Nat) : Bool :=
  if id < m.available then false else m.physMask id &&& validFlag ≠ 0

/-- The range holds the addresses, and it is enabled. -/
def Covers (m : Mtrrs) (n : Nat) (baseAddr size : BitVec 64) : Prop :=
  (∀ a, baseAddr ≤ a → a < baseAddr + size →
    a &&& addressBits (m.physMask n) = addressBits (m.physBase n) &&& addressBits (m.physMask n)) ∧
  m.rangeEnabled n = true

/-- `range_enabled` is false for every register that exists, so that the range is right only if none
was free. -/
theorem mtrr_covers_iff (m : Mtrrs) (baseAddr size : BitVec 64) (type : MtrrType) :
    (∀ n m', m.setVariableMtrr baseAddr size type = some (n, m') → m'.Covers n baseAddr size) ↔
      m.findFreeVarMtrr = none := by
  unfold setVariableMtrr
  cases hfree : m.findFreeVarMtrr with
  | none => simp
  | some free =>
    have hlt : free < m.available := List.mem_range.mp (List.mem_of_find?_eq_some hfree)
    simp [Covers, rangeEnabled, hlt]

/-- A range that has been set is not enabled. -/
theorem mtrr_range_disabled : ∃ m', setVariableMtrr ⟨8, fun _ => 0, fun _ => 0, 36⟩ 0 4096 .wc =
    some (0, m') ∧ m'.rangeEnabled 0 = false :=
  ⟨_, rfl, rfl⟩

end Mtrrs

/-! ## SMBIOS tables -/

/-- `find_strings_end`; `none` means that `fuel` bytes hold no end. -/
def findStringsEnd (mem : Bytes) : Nat → Nat → Option Nat
  | 0, _ => none
  | fuel + 1, offset =>
    if mem offset ≠ 0 ∨ mem (offset + 1) ≠ 0 then findStringsEnd mem fuel (offset + 1)
    else some (offset + 2)

/-- `get_string`, with the number of the string it has reached. -/
def getString (mem : Bytes) (number : UInt8) : Nat → Nat → UInt8 → Option (Option Nat)
  | 0, _, _ => none
  | fuel + 1, offset, idx =>
    if mem offset ≠ 0 ∨ mem (offset + 1) ≠ 0 then
      if idx = number then some (some offset)
      else getString mem number fuel (offset + 1) (if mem offset = 0 then idx + 1 else idx)
    else some none

/-- The loop of `bios_info`, from the structure at `tag`. -/
def biosInfoFrom (mem : Bytes) (tableEnd : Nat) : Nat → Nat → Option (Option Nat)
  | 0, _ => none
  | fuel + 1, tag =>
    if tag < tableEnd then
      if mem tag = 127 then some none
      else if mem tag = 0 then some (some tag)
      else
        (findStringsEnd mem fuel (tag + (mem (tag + 1)).toNat - 1)).bind
          (biosInfoFrom mem tableEnd fuel)
    else some none

/-- `bios_info` with the table mapped at `addr`; the end of the loop is a physical address. -/
def biosInfo (mem : Bytes) (addr : Nat) (tableAddress : Nat) (tableLength : UInt16) (fuel : Nat) :
    Option (Option Nat) :=
  biosInfoFrom mem (wadd tableAddress tableLength.toNat) (fuel + 1) addr

/-- No table in low memory that is mapped in kernel space is walked, and the first string, which
follows the end of its structure, is not found. -/
theorem smbios_finds_nothing (mem : Bytes) (page tagEnd fuel : Nat) (tableAddress : Fin (2 ^ 20))
    (tableLength : UInt16) :
    biosInfo mem (kernelVirtualBase + page) tableAddress tableLength fuel = some none ∧
      getString mem 1 fuel tagEnd 1 ≠ some (some (tagEnd + 1)) := by
  have hlength := tableLength.toNat_lt
  constructor
  · have hend : ¬ kernelVirtualBase + page < wadd tableAddress tableLength.toNat := by
      rw [wadd_of_lt (by omega)]
      unfold kernelVirtualBase
      omega
    exact if_neg hend
  · cases fuel with
    | zero => exact nofun
    | succ fuel => grind [getString]

/-- The structure at the start of this table has the type that is looked for. -/
theorem smbios_table_not_walked :
    biosInfo (fun a => if a = kernelVirtualBase + 1 then 4 else 0) kernelVirtualBase 0xF0000 6 6 =
      some none :=
  rfl

end LudOS.Platform
