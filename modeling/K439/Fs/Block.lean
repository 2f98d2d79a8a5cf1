import K439.Lib.Store

/-!
# Block devices

`kernel/block.cc`, and the constants of `kernel/fs.h`. A device is its bytes; `readBlock` and
`writeBlock` are the driver. The sizes `BLOCK_SZ` (512), `HEADER_SZ` and `DIR_ENTRY_SZ` (16) are
written out. Numbers of type `uint32_t` are natural numbers, with `w32` where they may wrap around.
-/

namespace K439.Fs

def TYPE_DIR : Nat := 2
def TYPE_FILE : Nat := 1

/-- The value of a `uint32_t` expression. -/
def w32 (x : Nat) : Nat := x % 0x100000000

theorem w32_lt {x : Nat} : w32 x < 0x100000000 := Nat.mod_lt x (by simp)

theorem w32_of_lt {x : Nat} (h : x < 0x100000000) : w32 x = x := Nat.mod_eq_of_lt h

/-- The byte addresses of the first `2 ^ 23` blocks do not wrap around. -/
theorem addr_lt {x i : Nat} (hx : x < 0x800000) (hi : i < 512) : x * 512 + i < 0x100000000 := by
  omega

abbrev Dev := Nat → UInt8

namespace BlockDevice

variable (dev : Dev)

def readBlock (blockNumber : Nat) : List UInt8 := slice dev (blockNumber * 512) 512

def writeBlock (blockNumber : Nat) (data : List UInt8) : Dev := put dev (blockNumber * 512) data

/-- The bytes that are read into the buffer. -/
def read (offset n : Nat) : List UInt8 :=
  let sector := offset / 512
  let data := readBlock dev sector
  let dataOffset := offset - sector * 512
  let m := min n (512 - dataOffset)
  (data.drop dataOffset).take m

/-- Writes the buffer `buf` of `n` bytes; also the number of bytes written. -/
def write (offset : Nat) (buf : List UInt8) : Nat × Dev :=
  let sector := offset / 512
  let data := readBlock dev sector
  let dataOffset := offset - sector * 512
  let m := min buf.length (512 - dataOffset)
  (m, writeBlock dev sector (data.take dataOffset ++ buf.take m ++ data.drop (dataOffset + m)))

/-- The loop of `readFully`; every round reads a byte. -/
def readFullyLoop : Nat → Nat → Nat → List UInt8
  | 0, _, _ => []
  | fuel + 1, offset, togo =>
    if togo > 0 then
      let c := read dev offset togo
      c ++ readFullyLoop fuel (w32 (offset + c.length)) (togo - c.length)
    else []

def readFully (offset n : Nat) : List UInt8 := readFullyLoop dev n offset n

/-- The loop of `writeFully`; every round writes a byte. -/
def writeFullyLoop : Nat → Dev → Nat → List UInt8 → Dev
  | 0, dev, _, _ => dev
  | fuel + 1, dev, offset, buf =>
    if buf.length > 0 then
      let (c, dev) := write dev offset buf
      writeFullyLoop fuel dev (w32 (offset + c)) (buf.drop c)
    else dev

def writeFully (offset : Nat) (buf : List UInt8) : Dev := writeFullyLoop buf.length dev offset buf

variable {dev : Dev} {offset n fuel : Nat} {buf : List UInt8}

theorem read_eq : read dev offset n = slice dev offset (min n (512 - offset % 512)) := by
  have hm : offset - offset / 512 * 512 = offset % 512 := by omega
  have hs : slice dev (offset / 512 * 512) 512 =
      slice dev (offset / 512 * 512) (offset % 512 + (512 - offset % 512)) := by
    congr 1; omega
  simp only [read, readBlock, hm]
  rw [hs, slice_drop, Nat.div_add_mod', slice_take (Nat.min_le_right _ _)]

theorem write_eq : write dev offset buf =
    (min buf.length (512 - offset % 512), put dev offset (buf.take (512 - offset % 512))) := by
  have hm : offset - offset / 512 * 512 = offset % 512 := by omega
  have ht : buf.take (min buf.length (512 - offset % 512)) = buf.take (512 - offset % 512) := by
    rw [List.take_eq_take_iff]; omega
  have hl : (buf.take (512 - offset % 512)).length = min buf.length (512 - offset % 512) := by
    rw [List.length_take, Nat.min_comm]
  simp only [write, readBlock, writeBlock, hm, ht]
  rw [← hl, put_splice (by omega), Nat.div_add_mod']

/-- A write within one block. -/
theorem write_eq_of_le (h : offset % 512 + buf.length ≤ 512) :
    write dev offset buf = (buf.length, put dev offset buf) := by
  rw [write_eq, Nat.min_eq_left (by omega), List.take_of_length_le (by omega)]

theorem readFullyLoop_eq (hf : n ≤ fuel) (h : offset + n ≤ 0x100000000) :
    readFullyLoop dev fuel offset n = slice dev offset n := by
  induction fuel generalizing offset n with
  | zero => rw [Nat.le_zero.mp hf]; rfl
  | succ fuel ih =>
    rcases Nat.eq_zero_or_pos n with rfl | hn
    · rfl
    have hc := Nat.mod_lt offset (show 512 > 0 by simp)
    generalize hk : min n (512 - offset % 512) = k
    obtain ⟨r, rfl⟩ := Nat.exists_eq_add_of_le (show k ≤ n by omega)
    rw [readFullyLoop, if_pos hn]
    simp only [read_eq, hk, slice_length, Nat.add_sub_cancel_left]
    rw [slice_add]
    rcases Nat.eq_zero_or_pos r with rfl | hr
    · simp [show ∀ o, readFullyLoop dev fuel o 0 = [] from fun o => by cases fuel <;> rfl]
    · rw [w32_of_lt (by omega), ih (by omega) (by omega)]

/-- Every byte is read, over block borders. -/
theorem readFully_eq (h : offset + n ≤ 0x100000000) :
    readFully dev offset n = slice dev offset n :=
  readFullyLoop_eq (Nat.le_refl n) h

theorem writeFullyLoop_eq (hf : buf.length ≤ fuel) (h : offset + buf.length ≤ 0x100000000) :
    writeFullyLoop fuel dev offset buf = put dev offset buf := by
  induction fuel generalizing dev offset buf with
  | zero => rw [List.length_eq_zero_iff.mp (Nat.le_zero.mp hf), put_nil]; rfl
  | succ fuel ih =>
    rcases Nat.eq_zero_or_pos buf.length with hn | hn
    · rw [List.length_eq_zero_iff.mp hn, put_nil]; rfl
    have hc := Nat.mod_lt offset (show 512 > 0 by simp)
    have hd : buf.drop (min buf.length (512 - offset % 512)) = buf.drop (512 - offset % 512) := by
      rw [List.drop_eq_drop_iff]; omega
    rw [writeFullyLoop, if_pos hn]
    simp only [write_eq, hd]
    conv => rhs; rw [← List.take_append_drop (512 - offset % 512) buf, ← put_put]
    rw [List.length_take, Nat.min_comm]
    rcases Nat.lt_or_ge (512 - offset % 512) buf.length with hr | hr
    · rw [w32_of_lt (by omega), ih (by simp; omega) (by simp; omega)]
    · rw [List.drop_of_length_le hr, put_nil]
      cases fuel <;> rfl

/-- Every byte is written, over block borders. -/
theorem writeFully_eq (h : offset + buf.length ≤ 0x100000000) :
    writeFully dev offset buf = put dev offset buf :=
  writeFullyLoop_eq (Nat.le_refl _) h

end BlockDevice

end K439.Fs
