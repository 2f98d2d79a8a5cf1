import K439.Fs.Block
import Mathlib.Data.List.GetD
import Mathlib.Logic.Function.Basic

/-!
# The byte device

`kernel/block.cc` for any block size. A device is its blocks; `read` and `write` move bytes of one
block, `readFully` and `writeFully` any range. What they do is what reading and writing an array of
bytes does.
-/

namespace K439.Fs

/-- A device of blocks of `blockSize` bytes. -/
structure Disk (blockSize : Nat) where
  block : Nat → List UInt8
  length_block : ∀ s, (block s).length = blockSize

namespace Disk

variable {blockSize : Nat} (k : Disk blockSize)

/-- The device as an array of bytes. -/
def bytes : Dev := fun a => (k.block (a / blockSize)).getD (a % blockSize) 0

def readBlock (sector : Nat) : List UInt8 := k.block sector

def writeBlock (sector : Nat) (data : List UInt8) (h : data.length = blockSize) :
    Disk blockSize where
  block := Function.update k.block sector data
  length_block s := by
    rcases Nat.decEq s sector with hne | rfl
    · rw [Function.update_of_ne hne]; exact k.length_block s
    · rw [Function.update_self]; exact h

/-- The bytes that are read into the buffer. -/
def read (offset n : Nat) : List UInt8 :=
  let sector := offset / blockSize
  let data := k.readBlock sector
  let dataOffset := w32 (offset - sector * blockSize)
  let m := min n (blockSize - dataOffset)
  (data.drop dataOffset).take m

/-- `data` with the first `m` bytes of the buffer at `dataOffset`. -/
def memcpy (data : List UInt8) (dataOffset : Nat) (buf : List UInt8) (m : Nat) : List UInt8 :=
  data.take dataOffset ++ buf.take m ++ data.drop (dataOffset + m)

theorem memcpy_length {data buf : List UInt8} {dataOffset m : Nat}
    (hd : dataOffset + m ≤ data.length) (hm : m ≤ buf.length) :
    (memcpy data dataOffset buf m).length = data.length := by
  simp only [memcpy, List.length_append, List.length_take, List.length_drop]
  omega

/-- Writes the buffer `buf` of `n` bytes; also the number of bytes written. -/
def write (offset : Nat) (buf : List UInt8) : Nat × Disk blockSize :=
  let sector := offset / blockSize
  let data := k.readBlock sector
  let dataOffset := w32 (offset - sector * blockSize)
  let m := min buf.length (blockSize - dataOffset)
  if h : (memcpy data dataOffset buf m).length = blockSize then
    (m, k.writeBlock sector (memcpy data dataOffset buf m) h)
  else (m, k)

/-- The loop of `readFully`; `none` if it takes more than `fuel` rounds. -/
def readFullyLoop : Nat → Nat → Nat → Option (List UInt8)
  | 0, _, _ => none
  | fuel + 1, offset, togo =>
    if togo > 0 then
      let c := k.read offset togo
      (readFullyLoop fuel (w32 (offset + c.length)) (togo - c.length)).map (c ++ ·)
    else some []

def readFully (offset n : Nat) : Option (List UInt8) := k.readFullyLoop (n + 1) offset n

/-- The loop of `writeFully`; `none` if it takes more than `fuel` rounds. -/
def writeFullyLoop : Nat → Disk blockSize → Nat → List UInt8 → Option (Disk blockSize)
  | 0, _, _, _ => none
  | fuel + 1, k, offset, buf =>
    if buf.length > 0 then
      let (c, k) := k.write offset buf
      writeFullyLoop fuel k (w32 (offset + c)) (buf.drop c)
    else some k

def writeFully (offset : Nat) (buf : List UInt8) : Option (Disk blockSize) :=
  writeFullyLoop (buf.length + 1) k offset buf

variable {k} {offset n s o m fuel : Nat} {buf : List UInt8}

section

variable (hpos : 0 < blockSize)
include hpos

/-- A piece of a block is a slice of the array. -/
theorem slice_bytes (h : o + m ≤ blockSize) :
    slice k.bytes (s * blockSize + o) m = ((k.block s).drop o).take m := by
  have hlen := k.length_block s
  apply List.ext_getElem
  · rw [slice_length, List.length_take, List.length_drop]; omega
  · intro i hi _
    rw [slice_length] at hi
    have hdiv : (s * blockSize + o + i) / blockSize = s := by
      rw [Nat.add_assoc, Nat.add_comm, Nat.add_mul_div_right _ _ hpos, Nat.div_eq_of_lt (by omega),
        Nat.zero_add]
    have hmod : (s * blockSize + o + i) % blockSize = o + i := by
      rw [Nat.add_assoc, Nat.mul_add_mod_self_right, Nat.mod_eq_of_lt (by omega)]
    rw [getElem_slice, List.getElem_take, List.getElem_drop, bytes, hdiv, hmod,
      List.getD_eq_getElem _ _ (by omega)]

theorem readBlock_eq : k.readBlock s = slice k.bytes (s * blockSize) blockSize := by
  have h := slice_bytes (k := k) (s := s) (o := 0) (m := blockSize) hpos (by omega)
  rw [Nat.add_zero, List.drop_zero, List.take_of_length_le (Nat.le_of_eq (k.length_block s))] at h
  exact h.symm

theorem writeBlock_bytes {data : List UInt8} (h : data.length = blockSize) :
    (k.writeBlock s data h).bytes = put k.bytes (s * blockSize) data := by
  funext a
  have ha := Nat.div_add_mod' a blockSize
  have hlt := Nat.mod_lt a hpos
  rcases Nat.decEq (a / blockSize) s with hne | rfl
  · conv => rhs; rw [← ha]
    rw [put_block_start_ne hne hlt (Nat.le_of_eq h), ha, bytes, bytes, writeBlock]
    dsimp only
    rw [Function.update_of_ne hne]
  · have hput :
        put k.bytes (a / blockSize * blockSize) data (a / blockSize * blockSize + a % blockSize) =
        data[a % blockSize] := put_add (by omega)
    rw [ha] at hput
    rw [hput, bytes, writeBlock]
    dsimp only
    rw [Function.update_self, List.getD_eq_getElem _ _ (by omega)]

variable (hoff : offset < 0x100000000)
include hoff

omit hpos in
theorem dataOffset_eq : w32 (offset - offset / blockSize * blockSize) = offset % blockSize := by
  rw [← Nat.mod_eq_sub_div_mul, w32_of_lt (Nat.lt_of_le_of_lt (Nat.mod_le ..) hoff)]

/-- The bytes that are moved fit into the block. -/
theorem memcpy_fits {data : List UInt8} (hd : data.length = blockSize) :
    (memcpy data (w32 (offset - offset / blockSize * blockSize)) buf
      (min buf.length (blockSize - w32 (offset - offset / blockSize * blockSize)))).length =
    blockSize := by
  have hlt := Nat.mod_lt offset hpos
  rw [dataOffset_eq hoff, memcpy_length (by omega) (by omega)]
  exact hd

theorem read_eq :
    k.read offset n = slice k.bytes offset (min n (blockSize - offset % blockSize)) := by
  have hlt := Nat.mod_lt offset hpos
  conv => rhs; rw [← Nat.div_add_mod' offset blockSize]
  rw [slice_bytes hpos (by rw [Nat.mul_add_mod_self_right, Nat.mod_mod]; omega), read,
    dataOffset_eq hoff, Nat.mul_add_mod_self_right, Nat.mod_mod]
  rfl

theorem write_eq : (k.write offset buf).1 = min buf.length (blockSize - offset % blockSize) ∧
    (k.write offset buf).2.bytes =
    put k.bytes offset (buf.take (blockSize - offset % blockSize)) := by
  have hlt := Nat.mod_lt offset hpos
  have hlen := k.length_block (offset / blockSize)
  have htake : buf.take (min buf.length (blockSize - offset % blockSize)) =
      buf.take (blockSize - offset % blockSize) := by
    rw [List.take_eq_take_iff]; omega
  have htl : (buf.take (blockSize - offset % blockSize)).length =
      min buf.length (blockSize - offset % blockSize) := by
    rw [List.length_take, Nat.min_comm]
  have hmem : (memcpy (k.readBlock (offset / blockSize)) _ buf _).length = blockSize :=
    memcpy_fits hpos hoff hlen
  rw [dataOffset_eq hoff] at hmem
  simp only [write, dataOffset_eq hoff, dif_pos hmem]
  refine ⟨trivial, ?_⟩
  rw [writeBlock_bytes hpos, memcpy, readBlock_eq hpos, htake, ← htl, put_splice (by omega),
    Nat.div_add_mod']

end

theorem readFullyLoop_eq (hpos : 0 < blockSize) (hf : n < fuel) (h : offset + n ≤ 0x100000000) :
    k.readFullyLoop fuel offset n = some (slice k.bytes offset n) := by
  induction fuel generalizing offset n with
  | zero => exact absurd hf (Nat.not_lt_zero n)
  | succ fuel ih =>
    rw [readFullyLoop]
    rcases Nat.eq_zero_or_pos n with rfl | hn
    · rfl
    have hlt := Nat.mod_lt offset hpos
    rw [if_pos hn]
    generalize hc : min n (blockSize - offset % blockSize) = c
    have hread : k.read offset n = slice k.bytes offset c := by rw [read_eq hpos (by omega), hc]
    obtain ⟨r, rfl⟩ := Nat.exists_eq_add_of_le (show c ≤ n by omega)
    simp only [hread, slice_length, Nat.add_sub_cancel_left]
    rcases Nat.eq_zero_or_pos r with rfl | hr
    · have hzero : ∀ o, k.readFullyLoop fuel o 0 = some [] := by
        intro o
        cases fuel with
        | zero => omega
        | succ fuel => rfl
      rw [hzero, Option.map_some, List.append_nil, Nat.add_zero]
    · rw [w32_of_lt (by omega), ih (by omega) (by omega), Option.map_some, slice_add]

theorem writeFullyLoop_eq (hpos : 0 < blockSize) (hf : buf.length < fuel)
    (h : offset + buf.length ≤ 0x100000000) :
    ∃ k', writeFullyLoop fuel k offset buf = some k' ∧ k'.bytes = put k.bytes offset buf := by
  induction fuel generalizing k offset buf with
  | zero => exact absurd hf (Nat.not_lt_zero _)
  | succ fuel ih =>
    rw [writeFullyLoop]
    rcases Nat.eq_zero_or_pos buf.length with hn | hn
    · rw [List.length_eq_zero_iff.mp hn]
      exact ⟨k, rfl, put_nil.symm⟩
    have hlt := Nat.mod_lt offset hpos
    rw [if_pos hn]
    generalize hc : min buf.length (blockSize - offset % blockSize) = c
    have hwrite : (k.write offset buf).1 = min buf.length (blockSize - offset % blockSize) ∧
        (k.write offset buf).2.bytes =
          put k.bytes offset (buf.take (blockSize - offset % blockSize)) :=
      write_eq hpos (by omega)
    rw [hc] at hwrite
    have htake : buf.take (blockSize - offset % blockSize) = buf.take c := by
      rw [List.take_eq_take_iff]; omega
    have htl : (buf.take c).length = c := by rw [List.length_take]; omega
    have hsplit : put k.bytes offset buf = put (put k.bytes offset (buf.take c)) (offset + c)
        (buf.drop c) := by
      conv => lhs; rw [← List.take_append_drop c buf, ← put_put, htl]
    dsimp only
    rw [hwrite.1, hsplit]
    rw [htake] at hwrite
    rcases Nat.lt_or_ge c buf.length with hr | hr
    · rw [w32_of_lt (by omega), ← hwrite.2]
      exact ih (by rw [List.length_drop]; omega) (by rw [List.length_drop]; omega)
    · rw [List.drop_of_length_le hr, put_nil]
      refine ⟨_, ?_, hwrite.2⟩
      cases fuel with
      | zero => omega
      | succ fuel => rfl

/-- Reading and writing any range ends, and is reading and writing the array. -/
theorem readFully_writeFully (hpos : 0 < blockSize) (k : Disk blockSize) (buf : List UInt8)
    (h : offset + buf.length ≤ 0x100000000) :
    k.readFully offset buf.length = some (slice k.bytes offset buf.length) ∧
      ∃ k', k.writeFully offset buf = some k' ∧ k'.bytes = put k.bytes offset buf ∧
        k'.readFully offset buf.length = some buf := by
  refine ⟨readFullyLoop_eq hpos (Nat.lt_succ_self _) h, ?_⟩
  obtain ⟨k', hk, hbytes⟩ := writeFullyLoop_eq (k := k) hpos (Nat.lt_succ_self buf.length) h
  refine ⟨k', hk, hbytes, ?_⟩
  rw [readFully, readFullyLoop_eq hpos (Nat.lt_succ_self _) h, hbytes, slice_put]

/-- A device of three-byte blocks, with zeros only. -/
def ofZeros : Disk 3 where
  block _ := [0, 0, 0]
  length_block _ := rfl

theorem readFully_writeFully_ofZeros :
    ofZeros.readFully 2 5 = some (slice ofZeros.bytes 2 5) ∧
      ∃ k', ofZeros.writeFully 2 [1, 2, 3, 4, 5] = some k' ∧
        k'.bytes = put ofZeros.bytes 2 [1, 2, 3, 4, 5] ∧
        k'.readFully 2 5 = some [1, 2, 3, 4, 5] :=
  readFully_writeFully (by decide) ofZeros [1, 2, 3, 4, 5] (by decide)

/-! ## Blocks of 512 bytes -/

/-- The device with the bytes `dev`. -/
def ofDev (dev : Dev) : Disk 512 where
  block s := slice dev (s * 512) 512
  length_block _ := slice_length

theorem ofDev_bytes (dev : Dev) : (ofDev dev).bytes = dev := by
  funext a
  have hlt := Nat.mod_lt a (show 512 > 0 by simp)
  rw [bytes, ofDev]
  dsimp only
  rw [List.getD_eq_getElem _ _ (by rw [slice_length]; exact hlt), getElem_slice, Nat.div_add_mod']

/-- The file system's device is a device of 512-byte blocks. -/
theorem blockDevice_eq (dev : Dev) (h : offset + buf.length ≤ 0x100000000) :
    (ofDev dev).readFully offset buf.length = some (BlockDevice.readFully dev offset buf.length) ∧
      ∃ k', (ofDev dev).writeFully offset buf = some k' ∧
        k'.bytes = BlockDevice.writeFully dev offset buf := by
  have hread :
      (ofDev dev).readFully offset buf.length = some (slice (ofDev dev).bytes offset buf.length) :=
    readFullyLoop_eq (by simp) (Nat.lt_succ_self _) h
  obtain ⟨k', hwrite, hbytes⟩ :=
    writeFullyLoop_eq (k := ofDev dev) (by simp) (Nat.lt_succ_self buf.length) h
  rw [ofDev_bytes] at hread hbytes
  rw [BlockDevice.readFully_eq h, BlockDevice.writeFully_eq h]
  exact ⟨hread, k', hwrite, hbytes⟩

end Disk

end K439.Fs
