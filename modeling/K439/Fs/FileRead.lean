import K439.Fs.ReadBack
import Mathlib.Algebra.GroupWithZero.Nat

/-!
# Reading a file fully

`File::seek` and `File::readFully`. A read ends at the end of a block of the device, which the
header moves by 16 bytes; the loop goes on to the end of the buffer or of the file.
-/

namespace K439.Fs

/-- The value of a `uint32_t` as an `int32_t`. -/
def int32 (x : Nat) : Int := if x < 0x80000000 then x else (x : Int) - 0x100000000

theorem int32_of_lt {x : Nat} (h : x < 0x80000000) : int32 x = x := if_pos h

namespace Fat439File

def seek (f : Fat439File) (offset : Nat) : Fat439File := { f with offset := offset }

/-- The loop of `readFully`: what is returned, and the bytes that are put into the buffer. `none` if
it takes more than `fuel` rounds. -/
def readFullyLoop (fs : Fat439) (length : Nat) : Nat → Nat → Fat439File →
    Option (Int × List UInt8 × Fat439File)
  | 0, _, _ => none
  | fuel + 1, togo, f =>
    if togo > 0 then
      match f.read fs togo with
      | (.error c, f) => some (c, [], f)
      | (.ok bytes, f) =>
        if bytes.length = 0 then some (int32 (length - togo), [], f)
        else
          (readFullyLoop fs length fuel (togo - bytes.length) f).map fun (code, rest, f) =>
            (code, bytes ++ rest, f)
    else some (int32 length, [], f)

def readFully (fs : Fat439) (f : Fat439File) (length : Nat) :
    Option (Int × List UInt8 × Fat439File) :=
  readFullyLoop fs length (length + 1) length f

/-- One `readFully` after the other: the numbers they return and all the bytes. -/
def readEach (fs : Fat439) :
    List Nat → Fat439File → Option (List Int × List UInt8 × Fat439File)
  | [], f => some ([], [], f)
  | n :: ns, f => do
    let (code, bytes, f) ← f.readFully fs n
    let (codes, rest, f) ← readEach fs ns f
    some (code :: codes, bytes ++ rest, f)

end Fat439File

variable {fs : Fat439} {s o n : Nat} {bs : List Nat}

/-- The bytes of the file whose blocks are `bs`. -/
def contents (fs : Fat439) (s : Nat) (bs : List Nat) : List UInt8 :=
  slice (view 512 fs.dev bs) 16 (fs.metaData s).length

/-- A chain of blocks with byte addresses below `2 ^ 32` that holds the header and the bytes of a
file of less than `2 ^ 31` bytes. -/
structure Covers (fs : Fat439) (s : Nat) (bs : List Nat) : Prop where
  linked : Linked fs.fat 0 s bs
  le : 16 + (fs.metaData s).length ≤ 512 * bs.length
  lt : ∀ x ∈ bs, x * 512 < 0x100000000
  length_lt : (fs.metaData s).length < 0x80000000

namespace Covers

variable (C : Covers fs s bs)
include C

omit C in
theorem length_contents : (contents fs s bs).length = (fs.metaData s).length := slice_length

/-- One read gives the bytes at the offset, up to the end of the file or of the block. -/
theorem openFile_read (ho : o ≤ (fs.metaData s).length) : OpenFile.read fs s o n =
    .ok (((contents fs s bs).drop o).take
      (min (min n ((fs.metaData s).length - o)) (512 - (o + 16) % 512))) := by
  have hlt := C.length_lt
  have hread : OpenFile.read fs s o n = .ok (((contents fs s bs).drop o).take
      (min (min n ((contents fs s bs).length - o)) (512 - (o + 16) % 512))) :=
    OpenFile.read_contents (by rw [length_contents, contents]) C.linked
      (by rw [length_contents]; exact C.le)
      (fun x hx => by have := C.lt x hx; omega) length_contents.symm
        (by rw [length_contents]; omega)
      (by rw [length_contents]; exact ho)
  rwa [length_contents] at hread

theorem read (ho : o ≤ (fs.metaData s).length) : Fat439File.read fs ⟨s, o⟩ n =
    (.ok (((contents fs s bs).drop o).take
      (min (min n ((fs.metaData s).length - o)) (512 - (o + 16) % 512))),
    ⟨s, o + min (min n ((fs.metaData s).length - o)) (512 - (o + 16) % 512)⟩) := by
  have hlt := C.length_lt
  have hmod := Nat.mod_lt (o + 16) (show 512 > 0 by simp)
  rw [Fat439File.read]
  simp only [C.openFile_read ho]
  congr 2
  rw [List.length_take, List.length_drop, length_contents, w32_of_lt (by omega)]
  omega

theorem readFullyLoop {length fuel togo : Nat} (ho : o ≤ (fs.metaData s).length)
    (hf : togo < fuel) (hle : togo ≤ length)
    (hret : length - togo + min togo ((fs.metaData s).length - o) < 0x80000000) :
    Fat439File.readFullyLoop fs length fuel togo ⟨s, o⟩ =
      some (((length - togo + min togo ((fs.metaData s).length - o) : Nat) : Int),
        ((contents fs s bs).drop o).take togo,
        ⟨s, o + min togo ((fs.metaData s).length - o)⟩) := by
  have hlt := C.length_lt
  induction fuel generalizing o togo with
  | zero => exact absurd hf (Nat.not_lt_zero _)
  | succ fuel ih =>
    rw [Fat439File.readFullyLoop]
    rcases Nat.eq_zero_or_pos togo with rfl | hpos
    · rw [if_neg (Nat.lt_irrefl 0), Nat.zero_min, Nat.sub_zero, Nat.add_zero, List.take_zero]
      rw [Nat.zero_min, Nat.add_zero, Nat.sub_zero] at hret
      rw [int32_of_lt hret]
      rfl
    have hmod := Nat.mod_lt (o + 16) (show 512 > 0 by simp)
    rw [if_pos hpos]
    simp only [C.read ho]
    generalize hm : min (min togo ((fs.metaData s).length - o)) (512 - (o + 16) % 512) = m
    have hml : (((contents fs s bs).drop o).take m).length = m := by
      rw [List.length_take, List.length_drop, length_contents]; omega
    rw [hml]
    rcases Nat.eq_zero_or_pos m with rfl | hm0
    · -- the end of the file
      obtain rfl : o = (fs.metaData s).length := by omega
      rw [if_pos rfl, Nat.sub_self, Nat.min_zero, int32_of_lt (by omega),
        List.drop_of_length_le (Nat.le_of_eq length_contents), List.take_nil]
      rfl
    · have hrest := @ih (o + m) (togo - m) (by omega) (by omega) (by omega) (by omega)
      rw [if_neg (Nat.pos_iff_ne_zero.mp hm0), hrest, Option.map_some]
      congr 2
      · dsimp only
        congr 1; omega
      · dsimp only
        congr 1
        · rw [← List.drop_drop, ← List.take_add]
          congr 1; omega
        · congr 1; omega

/-- `readFully` at an offset within the file. -/
theorem readFully (ho : o ≤ (fs.metaData s).length) : Fat439File.readFully fs ⟨s, o⟩ n =
    some (((min n ((fs.metaData s).length - o) : Nat) : Int), ((contents fs s bs).drop o).take n,
      ⟨s, o + min n ((fs.metaData s).length - o)⟩) := by
  have hlt := C.length_lt
  rw [Fat439File.readFully,
    C.readFullyLoop ho (Nat.lt_succ_self n) (Nat.le_refl n) (by omega), Nat.sub_self, Nat.zero_add]

/-- Reads of any sizes give what one read of their sum gives. -/
theorem readEach (ho : o ≤ (fs.metaData s).length) (ns : List Nat) :
    ∃ codes, Fat439File.readEach fs ns ⟨s, o⟩ =
    some (codes, ((contents fs s bs).drop o).take ns.sum,
      ⟨s, o + min ns.sum ((fs.metaData s).length - o)⟩) := by
  induction ns generalizing o with
  | nil => exact ⟨[], by rw [List.sum_nil, List.take_zero, Nat.zero_min]; rfl⟩
  | cons n ns ih =>
    obtain ⟨codes, h⟩ := ih (o := o + min n ((fs.metaData s).length - o)) (by omega)
    refine ⟨((min n ((fs.metaData s).length - o) : Nat) : Int) :: codes, ?_⟩
    rw [Fat439File.readEach, C.readFully ho]
    simp only [Option.bind_eq_bind, Option.bind_some, h, List.sum_cons]
    congr 2
    congr 1
    · have hdrop : (contents fs s bs).drop (o + min n ((fs.metaData s).length - o)) =
          (contents fs s bs).drop (o + n) := by
        rw [List.drop_eq_drop_iff, length_contents]; omega
      rw [List.take_add, List.drop_drop, hdrop]
    · congr 1; omega

end Covers

/-- Behind the end there is nothing to read. -/
theorem Fat439File.readFully_tooLong (ho : (fs.metaData s).length < o) (hn : 0 < n) :
    readFully fs ⟨s, o⟩ n = some (ERR_TOO_LONG, [], ⟨s, o⟩) := by
  have hread : Fat439File.read fs ⟨s, o⟩ n = (.error ERR_TOO_LONG, ⟨s, o⟩) := by
    rw [Fat439File.read, OpenFile.read, if_pos ho]
  rw [readFully, readFullyLoop, if_pos hn, hread]

/-- Reading a file gives its bytes. -/
theorem readFully_contents (C : Covers fs s bs) (f : Fat439File) (hf : f.openFile = s) (o : Nat) :
    (o ≤ (fs.metaData s).length →
      (∀ n, (f.seek o).readFully fs n = some (((min n ((fs.metaData s).length - o) : Nat) : Int),
        slice (view 512 fs.dev bs) (16 + o) (min n ((fs.metaData s).length - o)),
        f.seek (o + min n ((fs.metaData s).length - o)))) ∧
      ∀ ns, ((f.seek o).readEach fs ns).map (·.2) =
      ((f.seek o).readFully fs ns.sum).map (·.2)) ∧
    ((fs.metaData s).length < o → ∀ n, 0 < n →
      (f.seek o).readFully fs n = some (ERR_TOO_LONG, [], f.seek o)) := by
  obtain ⟨t, o₀⟩ := f
  obtain rfl : t = s := hf
  refine ⟨fun ho => ⟨fun n => ?_, fun ns => ?_⟩,
    fun ho n hn => Fat439File.readFully_tooLong ho hn⟩
  · have hslice : ((contents fs t bs).drop o).take n =
        slice (view 512 fs.dev bs) (16 + o) (min n ((fs.metaData t).length - o)) := by
      rw [← slice_slice (n := (fs.metaData t).length) (by omega), ← contents,
        List.take_eq_take_iff, List.length_drop, Covers.length_contents]
      omega
    exact hslice ▸ C.readFully ho
  · obtain ⟨codes, h⟩ := C.readEach ho ns
    rw [show Fat439File.seek ⟨t, o₀⟩ o = ⟨t, o⟩ from rfl, h, C.readFully ho]
    rfl

/-- The blocks 3 and 4 hold a file of 497 bytes. Only the last one is not zero. -/
def twoBlockFile : Fat439 where
  dev := put (put (fun _ => 0) 1536 (MetaData.bytes ⟨1, 497, 1023, 3⟩)) 2048 [1]
  super := ⟨0x39333446, 8, 5, 7⟩
  fat := fun b => if b = 3 then 4 else 0
  openFilesMutex := 1
  openFiles := fun s => if s = 3 then some ⟨⟨1, 497, 1023, 3⟩, 1⟩ else none

theorem twoBlockFile_covers : Covers twoBlockFile 3 [3, 4] :=
  ⟨by simp [Linked, twoBlockFile], by decide, by decide, by decide⟩

/-- Over the end of a block to the end of the file, and behind it. -/
theorem readFully_contents_twoBlockFile :
    Fat439File.readFully twoBlockFile ⟨3, 494⟩ 5 = some (3, [0, 0, 1], ⟨3, 497⟩) ∧
      Fat439File.readFully twoBlockFile ⟨3, 498⟩ 5 = some (ERR_TOO_LONG, [], ⟨3, 498⟩) := by
  have hlen : (twoBlockFile.metaData 3).length = 497 := by decide
  have hbytes : slice (view 512 twoBlockFile.dev [3, 4]) 510 3 = [0, 0, 1] := by decide
  have h := (readFully_contents twoBlockFile_covers ⟨3, 9⟩ rfl 494).1 (by rw [hlen]; decide)
  have h5 := h.1 5
  rw [hlen, show 16 + 494 = 510 from rfl, show min 5 (497 - 494) = 3 from rfl, hbytes] at h5
  have h2 := (readFully_contents twoBlockFile_covers ⟨3, 9⟩ rfl 498).2 (by rw [hlen]; decide) 5
      (by decide)
  exact ⟨h5, h2⟩

end K439.Fs
