import LudOS.Fs.Vfs
import LudOS.Utils.Span

/-!
# Reading a tar archive

The walk of `TarFS::list_nodes` over the headers of an archive in memory, `fs/tar/tar.cpp`. The walk
looks at addresses, which have 32 bits, and at whatever is in memory there: it goes on 512 bytes
behind the archive, and nothing checks that a header or the data it announces lies inside.

`Reaches` has the offsets of the headers that follow one another in the archive, in numbers without
a bound. `list_nodes_inside_iff` says that the walk ends and all nodes lie in the archive if and
only if this holds for the data of all headers that are reached. `list_nodes_diverges` is a file
whose size takes the walk back to its own header.
-/

namespace LudOS.Fs.Tar

open Lib

/-! ## Numbers -/

/-- `sizeof(Header)`. -/
def headerSize : Nat := 512

/-- The bytes before the first zero, as `strncpy` and `trim_zstr` take them. -/
def cString (bytes : List UInt8) : List UInt8 := bytes.takeWhile (· ≠ 0)

/-- `isspace`. -/
def isSpace (c : UInt8) : Bool := (9 ≤ c && c < 14) || c == 32

/-- The loop of `strtoll` over octal digits. -/
def octal (val : Nat) : List UInt8 → Nat
  | [] => val
  | c :: cs =>
    if '0'.toUInt8 ≤ c ∧ c ≤ '7'.toUInt8 then octal (val * 8 + (c - '0'.toUInt8).toNat) cs else val

/-- `strtoll` with base 8. The numbers of a header have so few digits that there is no overflow. -/
def strtoll (str : List UInt8) : Int :=
  match str.dropWhile isSpace with
  | [] => 0
  | c :: cs =>
    if c = '-'.toUInt8 then -(octal 0 cs : Int)
    else if c = '+'.toUInt8 then octal 0 cs
    else octal 0 (c :: cs)

/-- `TarFS::read_number`; the result is cut to 32 bits. -/
def readNumber (str : List UInt8) : Nat := (strtoll (cString str) % 2 ^ 32).toNat

/-! ## Headers -/

/-- `tar_node`, as `read_header` makes it. `m_name` is the whole path. -/
structure TarNode where
  name : Str
  type : NodeType
  linkTarget : Str := []
  dataAddr : Nat
  size : Nat
  stat : Stat := mkstat
  deriving DecidableEq, Repr

/-- `m_file` at its place in memory. A vector has less than `2 ^ 31` elements. -/
structure TarImage where
  memory : Bytes
  data : Nat
  size : Nat
  fits : data + size ≤ 2 ^ 32
  small : size < 2 ^ 31
  large : headerSize ≤ size

/-- The type for a `typeflag`, if there are nodes for it. -/
def nodeType (typeflag : UInt8) : Option NodeType :=
  if typeflag = '0'.toUInt8 ∨ typeflag = 0 then some .file
  else if typeflag = '5'.toUInt8 then some .directory
  else if typeflag = '1'.toUInt8 ∨ typeflag = '2'.toUInt8 then some .symLink
  else if typeflag = '3'.toUInt8 ∨ typeflag = '4'.toUInt8 ∨ typeflag = '6'.toUInt8 ∨
      typeflag = '7'.toUInt8 then none
  else some .file

/-- Bytes as characters. -/
def toStr (bytes : List UInt8) : Str := bytes.map fun c => Char.ofNat c.toNat

namespace TarImage

variable (image : TarImage)

/-- A byte of memory behind a pointer. -/
def byteAt (ptr off : Nat) : UInt8 := image.memory (wadd ptr off)

/-- A field of the header at a pointer. -/
def field (ptr off len : Nat) : List UInt8 :=
  (List.range len).map fun i => image.byteAt ptr (off + i)

/-- `TarFS::check_sum`: the sum of all bytes, with blanks for the sum itself. -/
def checkSum (ptr : Nat) : Bool :=
  let sum := ((List.range headerSize).map fun i =>
    if 148 ≤ i ∧ i < 156 then 32 else (image.byteAt ptr i).toNat).sum
  readNumber (image.field ptr 148 8) == sum

/-- `TarFS::read_header`. -/
def readHeader (hdr : Nat) : Option TarNode :=
  if image.byteAt hdr 0 = 0 then none
  else if image.checkSum hdr = false then none
  else (nodeType (image.byteAt hdr 156)).map fun type =>
    { name := toStr (cString (image.field hdr 0 100))
      type
      linkTarget := if type = .symLink then toStr (cString (image.field hdr 157 100)) else []
      dataAddr := wadd hdr headerSize
      size := readNumber (image.field hdr 124 12)
      stat :=
        { perms := UInt16.ofNat (readNumber (image.field hdr 100 8))
          uid := UInt32.ofNat (readNumber (image.field hdr 108 8))
          gid := UInt32.ofNat (readNumber (image.field hdr 116 8)) } }

/-! ## The walk -/

/-- The pointer to the next header. -/
def advance (ptr : Nat) : Nat :=
  let jump := readNumber (image.field ptr 124 12)
  let jump := if jump % headerSize ≠ 0 then wadd jump (headerSize - jump % headerSize) else jump
  let ptr := wadd ptr (wadd headerSize jump)
  -- Blocks at the end of the file.
  if image.readHeader ptr = none then wadd ptr headerSize else ptr

/-- The loop of `TarFS::read_dir` up to the address `last`; `none` if it has not come to its end. -/
def readFrom (last : Nat) : (fuel ptr : Nat) → Option (List TarNode)
  | 0, _ => none
  | fuel + 1, ptr =>
    if ptr < last then
      match image.readHeader ptr with
      | none => some []
      | some node => (readFrom last fuel (image.advance ptr)).map (node :: ·)
    else some []

/-- `TarFS::read_dir`. -/
def readDir (fuel addr size : Nat) : Option (List TarNode) :=
  image.readFrom (wadd addr size) fuel addr

/-- `TarFS::list_nodes`. -/
def listNodes (fuel : Nat) : Option (List TarNode) :=
  image.readDir fuel (wadd image.data headerSize) image.size

/-- The header of the node and its data lie in the archive. -/
def Inside (node : TarNode) : Prop :=
  image.data ≤ wsub node.dataAddr headerSize ∧
    wsub node.dataAddr headerSize + headerSize + node.size ≤ image.data + image.size

/-! ## The headers of the archive -/

/-- The address for an offset in the archive. -/
def ptr (offset : Nat) : Nat := wadd image.data offset

/-- The address at which the walk ends. -/
def last : Nat := wadd (wadd image.data headerSize) image.size

/-- The pointer is still before the end of the walk. -/
def Before (offset : Nat) : Prop := image.ptr offset < image.last

/-- The number of bytes in whole blocks. -/
def blocks (size : Nat) : Nat := (size + (headerSize - 1)) / headerSize * headerSize

/-- The offset of the header behind the data of a file; an unreadable block is skipped. -/
def nextOffset (offset size : Nat) : Nat :=
  let next := offset + headerSize + blocks size
  if image.readHeader (image.ptr next) = none then next + headerSize else next

/-- The offsets at which headers are looked for, one after the other. -/
inductive Reaches : Nat → Prop where
  | first : Reaches headerSize
  | next {offset : Nat} {node : TarNode} : Reaches offset → image.Before offset →
      image.readHeader (image.ptr offset) = some node →
      Reaches (image.nextOffset offset node.size)

/-- The data of every header that is reached lies in the archive. -/
def Contained : Prop :=
  ∀ offset node, image.Reaches offset → image.Before offset →
    image.readHeader (image.ptr offset) = some node →
    offset + headerSize + node.size ≤ image.size

variable {image} {offset fuel : Nat} {node : TarNode} {nodes : List TarNode}

/-! ## Steps -/

theorem readFrom_stop (h : ¬ image.Before offset) (fuel : Nat) :
    image.readFrom image.last (fuel + 1) (image.ptr offset) = some [] := if_neg h

theorem readFrom_none (h : image.Before offset) (hread : image.readHeader (image.ptr offset) = none)
    (fuel : Nat) : image.readFrom image.last (fuel + 1) (image.ptr offset) = some [] := by
  refine (if_pos h).trans ?_
  rw [hread]

theorem readFrom_some (h : image.Before offset)
    (hread : image.readHeader (image.ptr offset) = some node) (fuel : Nat) :
    image.readFrom image.last (fuel + 1) (image.ptr offset) =
      (image.readFrom image.last fuel (image.advance (image.ptr offset))).map (node :: ·) := by
  refine (if_pos h).trans ?_
  rw [hread]

/-- The fields of a node that matter to the walk. -/
theorem readHeader_eq_some {hdr : Nat} (h : image.readHeader hdr = some node) :
    node.dataAddr = wadd hdr headerSize ∧ node.size = readNumber (image.field hdr 124 12) := by
  unfold readHeader at h
  split at h
  · cases h
  split at h
  · cases h
  obtain ⟨type, -, rfl⟩ := Option.map_eq_some_iff.mp h
  exact ⟨rfl, rfl⟩

theorem wadd_ptr (offset n : Nat) : wadd (image.ptr offset) n = image.ptr (offset + n) := by
  unfold ptr wadd
  omega

theorem ptr_of_lt (h : image.data + offset < 2 ^ 32) : image.ptr offset = image.data + offset := by
  unfold ptr wadd
  omega

/-- Rounding up in 32 bits, as long as the result fits. -/
theorem blocks_eq {size : Nat} (h : size < 2 ^ 31) :
    (if size % headerSize ≠ 0 then wadd size (headerSize - size % headerSize) else size) =
      blocks size := by
  unfold blocks headerSize wadd
  split
  · omega
  · omega

theorem blocks_le (size : Nat) : size ≤ blocks size ∧ blocks size < size + headerSize := by
  unfold blocks headerSize
  omega

section

variable (h : image.readHeader (image.ptr offset) = some node)

include h

/-- The pointer moves as the offset does, if the data lies in the archive. -/
theorem advance_ptr (hsize : node.size ≤ image.size) :
    image.advance (image.ptr offset) = image.ptr (image.nextOffset offset node.size) := by
  have hsmall := image.small
  obtain ⟨-, hread⟩ := readHeader_eq_some h
  have hblocks := @blocks_eq node.size (by omega)
  obtain ⟨-, hlt⟩ := blocks_le node.size
  have hsum : wadd headerSize (blocks node.size) = headerSize + blocks node.size := by
    unfold wadd
    unfold headerSize at hlt ⊢
    omega
  unfold advance nextOffset
  dsimp only
  rw [← hread, hblocks, hsum, wadd_ptr, Nat.add_assoc]
  split
  · rw [wadd_ptr]
  · rfl

/-- A node of the archive in offsets. -/
theorem inside_iff (hlt : offset < 2 ^ 32) :
    image.Inside node ↔ offset + headerSize + node.size ≤ image.size := by
  have hfits := image.fits
  obtain ⟨haddr, -⟩ := readHeader_eq_some h
  have hhdr : wsub node.dataAddr headerSize = image.ptr offset := by
    rw [haddr]
    unfold wsub wadd ptr headerSize wadd
    omega
  unfold Inside
  rw [hhdr]
  by_cases hwrap : image.data + offset < 2 ^ 32
  · rw [ptr_of_lt hwrap]
    omega
  · -- Behind the end of memory the pointer is before the archive.
    have hptr : image.ptr offset = image.data + offset - 2 ^ 32 := by
      unfold ptr wadd
      omega
    have hheader : headerSize = 512 := rfl
    omega

end

/-! ## Walks -/

theorem lt_nextOffset (offset size : Nat) : offset < image.nextOffset offset size := by
  unfold nextOffset headerSize
  dsimp only
  split
  · omega
  · omega

theorem nextOffset_le {size : Nat} (h : offset + headerSize + size ≤ image.size) :
    image.nextOffset offset size ≤ image.size + 2 * headerSize := by
  obtain ⟨-, hlt⟩ := blocks_le size
  unfold nextOffset
  dsimp only
  split
  · omega
  · omega

/-- From every header that is reached the walk comes to its end. -/
theorem Contained.exists_readFrom (h : image.Contained) (hreach : image.Reaches offset) :
    ∃ fuel nodes, image.readFrom image.last fuel (image.ptr offset) = some nodes ∧
      ∀ node ∈ nodes, image.Inside node := by
  -- The offsets grow and the last header in the archive is before its end.
  induction hleft : image.size - offset using Nat.strong_induction_on generalizing offset with
  | _ left ih =>
    by_cases hbefore : image.Before offset
    case neg => exact ⟨1, [], readFrom_stop hbefore 0, by simp⟩
    cases hread : image.readHeader (image.ptr offset) with
    | none => exact ⟨1, [], readFrom_none hbefore hread 0, by simp⟩
    | some node =>
      have hin := h offset node hreach hbefore hread
      have hlt := image.lt_nextOffset offset node.size
      have hsmall := image.small
      have hheader : headerSize = 512 := rfl
      obtain ⟨fuel, nodes, hrun, hinside⟩ := ih _ (by omega) (.next hreach hbefore hread) rfl
      refine ⟨fuel + 1, node :: nodes, ?_, ?_⟩
      · rw [readFrom_some hbefore hread, advance_ptr hread (by omega), hrun, Option.map_some]
      · intro node' hmem
        rcases List.mem_cons.mp hmem with rfl | hmem
        · exact (inside_iff hread (by omega)).mpr hin
        · exact hinside node' hmem

/-- A walk that has come to its end over nodes in the archive has been at every header that is
reached. -/
theorem readFrom_of_reaches
    (hrun : image.listNodes fuel = some nodes) (hinside : ∀ node ∈ nodes, image.Inside node)
    (hreach : image.Reaches offset) : offset ≤ image.size + 2 * headerSize ∧ ∃ fuel nodes,
      image.readFrom image.last fuel (image.ptr offset) = some nodes ∧
        ∀ node ∈ nodes, image.Inside node := by
  induction hreach with
  | first => exact ⟨by unfold headerSize; omega, fuel, nodes, hrun, hinside⟩
  | @next offset node _ hbefore hread ih =>
    obtain ⟨hle, fuel', nodes', hrun', hinside'⟩ := ih
    have hsmall := image.small
    have hheader : headerSize = 512 := rfl
    cases fuel' with
    | zero => cases hrun'
    | succ fuel' =>
      rw [readFrom_some hbefore hread] at hrun'
      obtain ⟨rest, hrest, rfl⟩ := Option.map_eq_some_iff.mp hrun'
      have hin := (inside_iff hread (by omega)).mp (hinside' node List.mem_cons_self)
      rw [advance_ptr hread (by omega)] at hrest
      exact ⟨nextOffset_le hin, fuel', rest, hrest,
        fun node' hmem => hinside' node' (List.mem_cons_of_mem node hmem)⟩

/-- `list_nodes` comes to its end with all nodes in the archive if and only if the data of every
header that is reached lies in the archive. -/
theorem list_nodes_inside_iff (image : TarImage) :
    (∃ fuel nodes, image.listNodes fuel = some nodes ∧ ∀ node ∈ nodes, image.Inside node) ↔
      image.Contained := by
  constructor
  · intro h offset node hreach hbefore hread
    obtain ⟨fuel, nodes, hrun, hinside⟩ := h
    obtain ⟨hle, fuel', nodes', hrun', hinside'⟩ := readFrom_of_reaches hrun hinside hreach
    have hsmall := image.small
    have hheader : headerSize = 512 := rfl
    cases fuel' with
    | zero => cases hrun'
    | succ fuel' =>
      rw [readFrom_some hbefore hread] at hrun'
      obtain ⟨rest, -, rfl⟩ := Option.map_eq_some_iff.mp hrun'
      exact (inside_iff hread (by omega)).mp (hinside' node List.mem_cons_self)
  · intro h
    exact h.exists_readFrom .first

/-! ## A header that leads to itself -/

/-- The walk stays at a header with this size. -/
theorem advance_self {hdr : Nat} (h : image.readHeader hdr = some node)
    (hsize : node.size = 2 ^ 32 - headerSize) (hlt : hdr < 2 ^ 32) : image.advance hdr = hdr := by
  have hmod : ¬ (2 ^ 32 - headerSize) % headerSize ≠ 0 := by decide
  have hjump : wadd hdr (wadd headerSize (2 ^ 32 - headerSize)) = hdr := by
    unfold wadd headerSize
    omega
  unfold advance
  dsimp only
  rw [← (readHeader_eq_some h).2, hsize, if_neg hmod, hjump, h]
  rfl

theorem readFrom_self {hdr last : Nat} (h : image.readHeader hdr = some node) (hlast : hdr < last)
    (hself : image.advance hdr = hdr) (fuel : Nat) : image.readFrom last fuel hdr = none := by
  induction fuel with
  | zero => rfl
  | succ fuel ih =>
    refine (if_pos hlast).trans ?_
    rw [h, hself, ih]
    rfl

end TarImage

/-- The bytes of the header of a file `a` whose size is `37777777000`, in octal digits. -/
def loopHeader : List (Nat × UInt8) :=
  [(0, 97), (124, 51), (125, 55), (126, 55), (127, 55), (128, 55), (129, 55), (130, 55), (131, 55),
    (132, 48), (133, 48), (134, 48), (148, 48), (149, 48), (150, 49), (151, 55), (152, 50),
    (153, 53), (155, 32), (156, 48)]

/-- An archive with that file behind the header of the top directory. -/
def loopImage : TarImage where
  memory := fun i => if i < 0xC1000200 then 0 else (loopHeader.lookup (i - 0xC1000200)).getD 0
  data := 0xC1000000
  size := 1024
  fits := by decide
  small := by decide
  large := by decide

/-- `list_nodes` reads that file again and again. -/
theorem list_nodes_diverges : ¬ ∃ fuel nodes, loopImage.listNodes fuel = some nodes := by
  intro h
  obtain ⟨fuel, nodes, hrun⟩ := h
  have hsize : (loopImage.readHeader 0xC1000200).map TarNode.size = some (2 ^ 32 - headerSize) := by
    decide +kernel
  obtain ⟨node, hread, hsize⟩ := Option.map_eq_some_iff.mp hsize
  have hself := TarImage.advance_self hread hsize (by decide)
  have hnone := @TarImage.readFrom_self _ _ _ loopImage.last hread (by decide) hself fuel
  cases hnone.symm.trans hrun

end LudOS.Fs.Tar
