import K439.Fs.FileRead

/-!
# Reading an open file fully

`OpenFile::readFully` moves the destination and what is left on, but not the offset: every round
reads at the same place (`Covers.readFullyCode`). It returns the range when no round but the first
one is needed, or when the bytes repeat (`readFullyCode_iff`).
-/

namespace K439.Fs

namespace OpenFile

variable (fs : Fat439) (start : Nat)

/-- The loop of `readFully`: what it returns, and the bytes that are stored in the buffer. `none` if
it takes more than `fuel` rounds. -/
def readFullyCodeLoop (offset length : Nat) : Nat → Nat → Option (Int × List UInt8)
  | 0, _ => none
  | fuel + 1, togo =>
    if togo > 0 then
      match read fs start offset togo with
      | .error cnt => some (cnt, [])
      | .ok p =>
        if p.length = 0 then some (int32 (length - togo), [])
        else (readFullyCodeLoop offset length fuel (togo - p.length)).map fun (code, rest) =>
        (code, p ++ rest)
    else some (int32 length, [])

/-- `readFully`, with what it returns. -/
def readFullyCode (offset length : Nat) : Option (Int × List UInt8) :=
  readFullyCodeLoop fs start offset length (length + 1) length

end OpenFile

variable {fs : Fat439} {s o n L w : Nat} {bs : List Nat}

/-- It ends, and the bytes are those of `readFully`. -/
theorem OpenFile.readFullyCode_bytes :
    (readFullyCode fs s o n).map (·.2) = some (readFully fs s o n) := by
  have hloop : ∀ fuel togo, togo ≤ fuel →
      (readFullyCodeLoop fs s o n (fuel + 1) togo).map (·.2) =
      some (readFullyLoop fs s o fuel togo) := by
    intro fuel
    induction fuel with
    | zero =>
      intro togo h
      rw [readFullyCodeLoop, if_neg (by omega), readFullyLoop]
      rfl
    | succ fuel ih =>
      intro togo h
      rw [readFullyCodeLoop, readFullyLoop]
      split
      next hpos =>
        cases read fs s o togo with
        | error cnt => rfl
        | ok p =>
          dsimp only
          split
          · rfl
          next hp =>
            rw [Option.map_map, ← Option.map_some, ← ih (togo - p.length) (by omega),
              Option.map_map]
            rfl
      next hpos => rfl
  exact hloop n n (Nat.le_refl n)

/-- The bytes of the file that the loop stores from `o` on, when a read gives at most `w` of
them. -/
def repeated (fs : Fat439) (bs : List Nat) (o w : Nat) (p : Nat) : UInt8 :=
  view 512 fs.dev bs (16 + o + p % w)

namespace Covers

variable (C : Covers fs s bs)
include C

/-- One round, in the bytes of the chain. -/
theorem read_view (ho : o ≤ (fs.metaData s).length)
    (hw : min (512 - (o + 16) % 512) ((fs.metaData s).length - o) = w) :
    OpenFile.read fs s o n = .ok (slice (view 512 fs.dev bs) (16 + o) (min n w)) := by
  rw [C.openFile_read ho, contents, slice_slice (by omega)]
  congr 2
  omega

/-- What the loop does before the end of the file. It never sees the end. -/
theorem readFullyCodeLoop {fuel togo : Nat} (ho : o < (fs.metaData s).length)
    (hw : min (512 - (o + 16) % 512) ((fs.metaData s).length - o) = w) (hf : togo < fuel) :
    OpenFile.readFullyCodeLoop fs s o n fuel togo =
    some (int32 n, slice (repeated fs bs o w) 0 togo) := by
  have hmod := Nat.mod_lt (o + 16) (show 512 > 0 by simp)
  have hw0 : 0 < w := by omega
  induction fuel generalizing togo with
  | zero => exact absurd hf (Nat.not_lt_zero _)
  | succ fuel ih =>
    rw [OpenFile.readFullyCodeLoop]
    rcases Nat.eq_zero_or_pos togo with rfl | hpos
    · rw [if_neg (Nat.lt_irrefl 0), slice_zero]
    rw [if_pos hpos, C.read_view (Nat.le_of_lt ho) hw]
    have hne : min togo w ≠ 0 := by omega
    dsimp only
    rw [slice_length, if_neg hne, ih (by omega), Option.map_some]
    have hfirst : slice (view 512 fs.dev bs) (16 + o) (min togo w) =
        slice (repeated fs bs o w) 0 (min togo w) := by
      refine slice_congr fun p hp => ?_
      rw [repeated, Nat.zero_add, Nat.mod_eq_of_lt (by omega)]
    have hrest : slice (repeated fs bs o w) 0 (togo - min togo w) =
        slice (repeated fs bs o w) (min togo w) (togo - min togo w) := by
      refine slice_congr fun p hp => ?_
      rw [repeated, repeated, Nat.zero_add, show min togo w = w by omega, Nat.add_mod_left]
    have hall : slice (repeated fs bs o w) 0 togo =
        slice (repeated fs bs o w) 0 (min togo w) ++ slice (repeated fs bs o w) (min togo w)
          (togo - min togo w) := by
      have := slice_add (m := repeated fs bs o w) (a := 0) (n := min togo w)
          (k := togo - min togo w)
      rwa [Nat.zero_add, Nat.add_sub_cancel' (Nat.min_le_left ..)] at this
    rw [hfirst, hrest, hall]

/-- What `readFully` returns and stores. -/
theorem readFullyCode (ho : o ≤ (fs.metaData s).length)
    (hw : min (512 - (o + 16) % 512) ((fs.metaData s).length - o) = w) :
    OpenFile.readFullyCode fs s o n =
      some (if o = (fs.metaData s).length then (0, []) else
        (int32 n, slice (repeated fs bs o w) 0 n)) := by
  rcases Nat.lt_or_eq_of_le ho with hlt | rfl
  · rw [if_neg (Nat.ne_of_lt hlt)]
    exact C.readFullyCodeLoop hlt hw (Nat.lt_succ_self n)
  · obtain rfl : w = 0 := by omega
    rw [if_pos rfl, OpenFile.readFullyCode, OpenFile.readFullyCodeLoop]
    rcases Nat.eq_zero_or_pos n with rfl | hpos
    · rfl
    · rw [if_pos hpos, C.read_view (Nat.le_refl _) hw, Nat.min_zero, slice_zero, Nat.sub_self]
      rfl

end Covers

/-- **`OpenFile::readFully` returns the range that is asked for when its bytes repeat with the
round**, or at the end of the file. A range that no block ends in repeats. -/
theorem readFullyCode_iff (C : Covers fs s bs) (ho : o ≤ (fs.metaData s).length)
    (hn : n < 0x100000000) :
    OpenFile.readFullyCode fs s o n =
    some (((min n ((fs.metaData s).length - o) : Nat) : Int),
      slice (view 512 fs.dev bs) (16 + o) (min n ((fs.metaData s).length - o))) ↔
    n = 0 ∨ o = (fs.metaData s).length ∨ n ≤ (fs.metaData s).length - o ∧
      ∀ p < n, view 512 fs.dev bs (16 + o + p) =
      view 512 fs.dev bs (16 + o + p % (512 - (o + 16) % 512)) := by
  have hL := C.length_lt
  rw [C.readFullyCode ho rfl, Option.some.injEq]
  rcases Nat.lt_or_eq_of_le ho with hlt | rfl
  · rw [if_neg (Nat.ne_of_lt hlt), Prod.mk.injEq, or_iff_right (Nat.ne_of_lt hlt)]
    rcases Nat.eq_zero_or_pos n with rfl | hpos
    · rw [Nat.zero_min]
      exact iff_of_true ⟨int32_of_lt (by omega), slice_zero.trans slice_zero.symm⟩ (.inl rfl)
    rw [or_iff_right (Nat.pos_iff_ne_zero.mp hpos)]
    rcases Nat.lt_or_ge ((fs.metaData s).length - o) n with hgt | hle
    · -- the rounds go on behind the end of the file
      refine iff_of_false (fun h => ?_) fun h => absurd h.1 (Nat.not_le.mpr hgt)
      have := h.1
      rw [int32] at this
      split at this
      · omega
      · omega
    · rw [Nat.min_eq_left hle, and_iff_right hle, int32_of_lt (by omega), and_iff_right rfl]
      have hperiod :
          ∀ p < n, repeated fs bs o (min (512 - (o + 16) % 512) ((fs.metaData s).length - o))
          (0 + p) =
          view 512 fs.dev bs (16 + o + p % (512 - (o + 16) % 512)) := by
        intro p hp
        rw [repeated, Nat.zero_add]
        rcases Nat.le_total (512 - (o + 16) % 512) ((fs.metaData s).length - o) with h | h
        · rw [Nat.min_eq_left h]
        · rw [Nat.min_eq_right h, Nat.mod_eq_of_lt (by omega), Nat.mod_eq_of_lt (by omega)]
      constructor
      · exact fun h p hp => (eq_of_slice_eq h hp).symm.trans (hperiod p hp)
      · exact fun h => slice_congr fun p hp => (hperiod p hp).trans (h p hp).symm
  · rw [if_pos rfl, Nat.sub_self, Nat.min_zero]
    exact iff_of_true rfl (.inr (.inl rfl))

/-- Up to the end of the first block. -/
theorem readFullyCode_twoBlockFile : OpenFile.readFullyCode twoBlockFile 3 490 6 =
    some (((min 6 ((twoBlockFile.metaData 3).length - 490) : Nat) : Int),
      slice (view 512 twoBlockFile.dev [3, 4]) (16 + 490)
    (min 6 ((twoBlockFile.metaData 3).length - 490))) :=
  (readFullyCode_iff twoBlockFile_covers (by decide) (by decide)).mpr <|
    .inr <| .inr ⟨by decide, fun p hp => by rw [Nat.mod_eq_of_lt (by omega)]⟩

/-- The last byte is read at the start of the file. -/
theorem readFullyCode_again :
    ¬∀ (fs : Fat439) s bs, Covers fs s bs → ∀ o ≤ (fs.metaData s).length, ∀ n <
    0x100000000, OpenFile.readFullyCode fs s o n =
      some (((min n ((fs.metaData s).length - o) : Nat) : Int),
        slice (view 512 fs.dev bs) (16 + o) (min n ((fs.metaData s).length - o))) := by
  intro h
  have hread := h _ _ _ twoBlockFile_covers 0 (Nat.zero_le _) 497 (by decide)
  rcases (readFullyCode_iff twoBlockFile_covers (Nat.zero_le _) (by decide)).mp hread with h0 | hL |
    ⟨-, hall⟩
  · cases h0
  · exact absurd hL (by decide)
  · exact absurd (hall 496 (by decide)) (by decide)

end K439.Fs
