import K439.Fs.ByteDevice
import K439.Lib.Run
import Mathlib.Data.Bool.Basic

/-!
# Two writers

`BlockDevice::write` is a request to read a block and a later one to write it. When another process
writes into the same block between the two, what it wrote is overwritten with what was there before.
-/

namespace K439.Fs

variable {blockSize : Nat}

/-- The end of `write`, with the block that was read. -/
def Disk.writeData (k : Disk blockSize) (offset : Nat) (data buf : List UInt8) : Disk blockSize :=
  let sector := offset / blockSize
  let dataOffset := w32 (offset - sector * blockSize)
  let m := min buf.length (blockSize - dataOffset)
  if h : (Disk.memcpy data dataOffset buf m).length = blockSize then
    k.writeBlock sector (Disk.memcpy data dataOffset buf m) h
  else k

/-- `write` reads the block and ends. -/
theorem Disk.write_eq_writeData {k : Disk blockSize} {offset : Nat} {buf : List UInt8} :
    (k.write offset buf).2 = k.writeData offset (k.readBlock (offset / blockSize)) buf := by
  rw [write, writeData]
  split <;> rfl

/-- A block that is written twice holds what was written last. -/
theorem Disk.writeData_writeData {k : Disk blockSize} {offset offset' : Nat}
    {buf buf' data data' : List UInt8} (hpos : 0 < blockSize) (hoff : offset' < 0x100000000)
    (hd : data'.length = blockSize) (h : offset / blockSize = offset' / blockSize) :
    (k.writeData offset data buf).writeData offset' data' buf' =
    k.writeData offset' data' buf' := by
  have hmem : (memcpy data' _ buf' _).length = blockSize := memcpy_fits hpos hoff hd
  simp only [writeData, dif_pos hmem]
  split
  · simp only [writeBlock, h, Function.update_idem]
  · rfl

/-- The other blocks stay as they are. -/
theorem Disk.readBlock_writeData {k : Disk blockSize} {offset s : Nat} {buf data : List UInt8}
    (h : s ≠ offset / blockSize) : (k.writeData offset data buf).readBlock s = k.readBlock s := by
  rw [writeData]
  split
  · exact Function.update_of_ne h ..
  · rfl

/-- A call of `write`. -/
structure Call where
  offset : Nat
  buf : List UInt8
  offset_lt : offset < 0x100000000

namespace Call

/-- The bytes that are written: those that fit into the block. `write` returns their number. -/
def written (blockSize : Nat) (c : Call) : List UInt8 :=
  c.buf.take (blockSize - c.offset % blockSize)

/-- The byte ranges of two calls have nothing in common. -/
def Disjoint (c c' : Call) : Prop :=
  c.offset + c.buf.length ≤ c'.offset ∨ c'.offset + c'.buf.length ≤ c.offset

theorem Disjoint.symm {c c' : Call} (h : c.Disjoint c') : c'.Disjoint c := Or.symm h

/-- What is written is part of the range. -/
theorem Disjoint.written {c c' : Call} (h : c.Disjoint c') :
    c.offset + (c.written blockSize).length ≤ c'.offset ∨
      c'.offset + (c'.written blockSize).length ≤ c.offset := by
  have hc : (c.written blockSize).length ≤ c.buf.length := List.length_take_le' ..
  have hc' : (c'.written blockSize).length ≤ c'.buf.length := List.length_take_le' ..
  refine h.imp (fun h => ?_) fun h => ?_
  · exact Nat.le_trans (Nat.add_le_add_left hc _) h
  · exact Nat.le_trans (Nat.add_le_add_left hc' _) h

end Call

/-- How far a call is. -/
inductive Phase
  | called
  | read (data : List UInt8)
  | returned

/-- Two processes that have each called `write`. -/
structure Writers (blockSize : Nat) where
  disk : Disk blockSize
  phase : Bool → Phase

namespace Writers

variable (calls : Bool → Call)

/-- The next request of the process `p`. -/
def request (s : Writers blockSize) (p : Bool) : Option (Writers blockSize) :=
  match s.phase p with
  | .called =>
    some { s with phase :=
      Function.update s.phase p (.read (s.disk.readBlock ((calls p).offset / blockSize))) }
  | .read data =>
    some { disk := s.disk.writeData (calls p).offset data (calls p).buf,
           phase := Function.update s.phase p .returned }
  | .returned => none

def start (k : Disk blockSize) : Writers blockSize := ⟨k, fun _ => .called⟩

/-- The requests in the order of `ls` lead to a state in which both calls have returned. -/
def Completes (k : Disk blockSize) (ls : List Bool) (k' : Disk blockSize) : Prop :=
  ∃ s, Run (fun s p t => request calls s p = some t) (start k) ls s ∧
    (∀ p, s.phase p = .returned) ∧ s.disk = k'

/-- The device holds what both calls wrote, and all other bytes are as they were. -/
def HoldsBoth (k k' : Disk blockSize) : Prop :=
  (∀ p, slice k'.bytes (calls p).offset ((calls p).written blockSize).length =
    (calls p).written blockSize) ∧ ∀ a, (∀ p, a < (calls p).offset ∨ (calls p).offset +
      ((calls p).written blockSize).length ≤ a) →
      k'.bytes a = k.bytes a

/-- What the call of `p` makes of the device when no other call is under way. -/
def update (k : Disk blockSize) (p : Bool) : Disk blockSize :=
  (k.write (calls p).offset (calls p).buf).2

/-- The states that the requests in the order of a list lead to. -/
inductive Reached (k : Disk blockSize) : List Bool → Writers blockSize → Prop
  | called : Reached k [] (start k)
  | one (p : Bool) (hp : s.phase p = .read (k.readBlock ((calls p).offset / blockSize)))
      (hq : s.phase (!p) = .called) (hd : s.disk = k) : Reached k [p] s
  | both (p : Bool) (hp : ∀ q, s.phase q = .read (k.readBlock ((calls q).offset / blockSize)))
      (hd : s.disk = k) :
      Reached k [p, !p] s
  | first (p : Bool) (hp : s.phase p = .returned) (hq : s.phase (!p) = .called)
      (hd : s.disk = update calls k p) :
      Reached k [p, p] s
  | next (p : Bool) (hp : s.phase p = .returned)
      (hq : s.phase (!p) = .read ((update calls k p).readBlock ((calls !p).offset / blockSize)))
      (hd : s.disk = update calls k p) : Reached k [p, p, !p] s
  | behind (p q : Bool) (hp : s.phase p = .returned)
      (hq : s.phase (!p) = .read (k.readBlock ((calls !p).offset / blockSize)))
      (hd : s.disk = update calls k p) : Reached k [q, !q, p] s
  | turns (p : Bool) (hp : ∀ q, s.phase q = .returned)
      (hd : s.disk = update calls (update calls k p) !p) :
      Reached k [p, p, !p, !p] s
  | overlap (p q : Bool) (hp : ∀ q, s.phase q = .returned)
      (hd : s.disk = (update calls k p).writeData (calls !p).offset
        (k.readBlock ((calls !p).offset / blockSize)) (calls !p).buf) : Reached k [q, !q, p, !p] s

/-- The two calls are in different blocks, or one returns before the other one is called, or the
first that writes writes what is there already. -/
def Spared (k : Disk blockSize) (ls : List Bool) : Prop :=
  (calls false).offset / blockSize ≠ (calls true).offset / blockSize ∨
    (∃ p, ls = [p, p, !p, !p]) ∨
    ∃ p, ls[2]? = some p ∧
      slice k.bytes (calls p).offset ((calls p).written blockSize).length =
        (calls p).written blockSize

variable {calls} {k k' : Disk blockSize} {ls : List Bool} {s t : Writers blockSize} {p : Bool}
  {data : List UInt8}

theorem request_called (h : s.phase p = .called) : request calls s p =
    some { s with phase :=
      Function.update s.phase p (.read (s.disk.readBlock ((calls p).offset / blockSize))) } := by
  rw [request, h]

theorem request_read (h : s.phase p = .read data) : request calls s p =
    some { disk := s.disk.writeData (calls p).offset data (calls p).buf,
           phase := Function.update s.phase p .returned } := by
  rw [request, h]

theorem request_returned (h : s.phase p = .returned) : request calls s p = none := by
  rw [request, h]

theorem update_eq : update calls k p =
    k.writeData (calls p).offset (k.readBlock ((calls p).offset / blockSize)) (calls p).buf :=
  Disk.write_eq_writeData

/-- A request leads from one of these states to another one. -/
theorem Reached.step (h : Reached calls k ls s) (ht : request calls s p = some t) :
    Reached calls k (ls ++ [p]) t := by
  cases h with
  | called =>
    rw [request_called rfl] at ht
    cases ht
    refine .one p ?_ ?_ rfl
    · simp [start]
    · simp [start]
  | one q hp hq hd =>
    rcases Bool.eq_or_eq_not p q with rfl | rfl
    · rw [request_read hp, hd, ← update_eq] at ht
      cases ht
      refine .first p ?_ ?_ rfl
      · simp
      · simpa using hq
    · rw [request_called hq, hd] at ht
      cases ht
      refine .both q ?_ rfl
      intro r
      rcases Bool.eq_or_eq_not r q with rfl | rfl
      · simpa using hp
      · simp
  | both q hp hd =>
    rw [request_read (hp p), hd, ← update_eq] at ht
    cases ht
    refine .behind p q ?_ ?_ rfl
    · simp
    · simpa using hp !p
  | first q hp hq hd =>
    rcases Bool.eq_or_eq_not p q with rfl | rfl
    · rw [request_returned hp] at ht
      cases ht
    · rw [request_called hq, hd] at ht
      cases ht
      refine .next q ?_ ?_ rfl
      · simpa using hp
      · simp
  | next q hp hq hd =>
    rcases Bool.eq_or_eq_not p q with rfl | rfl
    · rw [request_returned hp] at ht
      cases ht
    · rw [request_read hq, hd, ← update_eq] at ht
      cases ht
      refine .turns q ?_ rfl
      intro r
      rcases Bool.eq_or_eq_not r q with rfl | rfl
      · simpa using hp
      · simp
  | behind q r hp hq hd =>
    rcases Bool.eq_or_eq_not p q with rfl | rfl
    · rw [request_returned hp] at ht
      cases ht
    · rw [request_read hq, hd] at ht
      cases ht
      refine .overlap q r ?_ rfl
      intro r
      rcases Bool.eq_or_eq_not r q with rfl | rfl
      · simpa using hp
      · simp
  | turns q hp hd =>
    rw [request_returned (hp p)] at ht
    cases ht
  | overlap q r hp hd =>
    rw [request_returned (hp p)] at ht
    cases ht

theorem Reached.of_run (h : Run (fun s p t => request calls s p = some t) (start k) ls s) :
    Reached calls k ls s := by
  induction h with
  | nil => exact .called
  | snoc _ ht ih => exact ih.step ht

/-- One of the two completes first, or one reads before the other has written. -/
theorem Completes.cases (h : Completes calls k ls k') :
    (∃ p, ls = [p, p, !p, !p] ∧ k' = update calls (update calls k p) !p) ∨
      ∃ p q, ls = [q, !q, p, !p] ∧
        k' = (update calls k p).writeData (calls !p).offset
        (k.readBlock ((calls !p).offset / blockSize))
          (calls !p).buf := by
  obtain ⟨s, hr, hret, rfl⟩ := h
  cases Reached.of_run hr with
  | called => cases hret true
  | one p hp _ _ => cases hp.symm.trans (hret p)
  | both p hp _ => cases (hp p).symm.trans (hret p)
  | first p _ hq _ => cases hq.symm.trans (hret _)
  | next p _ hq _ => cases hq.symm.trans (hret _)
  | behind p q _ hq _ => cases hq.symm.trans (hret _)
  | turns p _ hd => exact .inl ⟨p, rfl, hd⟩
  | overlap p q _ hd => exact .inr ⟨p, q, rfl, hd⟩

section

variable (hpos : 0 < blockSize)
include hpos

theorem update_bytes :
    (update calls k p).bytes = put k.bytes (calls p).offset ((calls p).written blockSize) :=
  (Disk.write_eq hpos (calls p).offset_lt).2

variable (hd : (calls false).Disjoint (calls true))
include hd

omit hpos in
theorem written_disjoint (p : Bool) :
    (calls p).offset + ((calls p).written blockSize).length ≤ (calls !p).offset ∨
      (calls !p).offset + ((calls !p).written blockSize).length ≤ (calls p).offset := by
  cases p with
  | false => exact hd.written
  | true => exact hd.symm.written

theorem holdsBoth_turns : HoldsBoth calls k (update calls (update calls k p) !p) := by
  have hdis : (calls p).offset + ((calls p).written blockSize).length ≤ (calls !p).offset ∨
      (calls !p).offset + ((calls !p).written blockSize).length ≤ (calls p).offset :=
        written_disjoint hd p
  rw [HoldsBoth, update_bytes hpos, update_bytes hpos]
  constructor
  · intro q
    rcases Bool.eq_or_eq_not q p with rfl | rfl
    · rw [slice_put_of_disjoint hdis, slice_put]
    · exact slice_put
  · intro a ha
    rw [put_of_outside (ha !p), put_of_outside (ha p)]

theorem holdsBoth_lost : HoldsBoth calls k (update calls k !p) ↔
    slice k.bytes (calls p).offset ((calls p).written blockSize).length =
    (calls p).written blockSize := by
  have hdis : (calls p).offset + ((calls p).written blockSize).length ≤ (calls !p).offset ∨
      (calls !p).offset + ((calls !p).written blockSize).length ≤ (calls p).offset :=
        written_disjoint hd p
  rw [HoldsBoth, update_bytes hpos]
  constructor
  · intro h
    rw [← slice_put_of_disjoint hdis]
    exact h.1 p
  · intro h
    constructor
    · intro q
      rcases Bool.eq_or_eq_not q p with rfl | rfl
      · rw [slice_put_of_disjoint hdis]; exact h
      · exact slice_put
    · intro a ha
      exact put_of_outside (ha !p)

end

theorem sector_not (p : Bool) :
    (calls false).offset / blockSize = (calls true).offset / blockSize ↔
    (calls p).offset / blockSize = (calls !p).offset / blockSize := by
  cases p with
  | false => exact Iff.rfl
  | true => exact eq_comm

/-- When both calls have returned, both updates are there unless one of them was overwritten with
what was in its block before. -/
theorem holdsBoth_iff (hpos : 0 < blockSize) (hd : (calls false).Disjoint (calls true))
    (h : Completes calls k ls k') : HoldsBoth calls k k' ↔ Spared calls k ls := by
  rcases h.cases with ⟨p, rfl, rfl⟩ | ⟨p, q, rfl, rfl⟩
  · exact iff_of_true (holdsBoth_turns hpos hd) (.inr (.inl ⟨p, rfl⟩))
  rcases Nat.decEq ((calls p).offset / blockSize) ((calls !p).offset / blockSize) with hne | heq
  · rw [← Disk.readBlock_writeData (Ne.symm hne), ← update_eq, ← update_eq]
    exact iff_of_true (holdsBoth_turns hpos hd) (.inl fun h => hne ((sector_not p).mp h))
  · have hlen : (k.readBlock ((calls !p).offset / blockSize)).length = blockSize :=
      k.length_block _
    rw [update_eq, Disk.writeData_writeData hpos (calls _).offset_lt hlen heq, ← update_eq,
      holdsBoth_lost hpos hd]
    constructor
    · intro h
      exact .inr (.inr ⟨p, rfl, h⟩)
    · rintro (h | ⟨r, h⟩ | ⟨r, hr, h⟩)
      · exact absurd ((sector_not p).mpr heq) h
      · obtain ⟨rfl, h, -⟩ : q = r ∧ (!q) = r ∧ _ := by
          simpa only [List.cons.injEq] using h
        exact absurd h (Bool.not_ne_self q)
      · cases hr
        exact h

/-! ## Two bytes of one block -/

/-- One process writes the first byte of a block, the other one the second. -/
def neighbours (p : Bool) : Call := if p then ⟨1, [8], by decide⟩ else ⟨0, [7], by decide⟩

theorem neighbours_disjoint : (neighbours false).Disjoint (neighbours true) := .inl (by decide)

theorem holdsBoth_iff_neighbours : HoldsBoth neighbours Disk.ofZeros
    (update neighbours (update neighbours Disk.ofZeros false) true) ↔
      Spared neighbours Disk.ofZeros [false, false, true, true] := by
  refine holdsBoth_iff (by decide) neighbours_disjoint ⟨_,
    .of_foldlM (fun _ _ _ h => h) rfl, ?_, rfl⟩
  intro p
  cases p with
  | false => rfl
  | true => rfl

/-- Both read, then both write: the byte that is written first is lost. -/
theorem update_lost : ∃ k', Completes neighbours Disk.ofZeros [false, true, false, true] k' ∧
    ¬HoldsBoth neighbours Disk.ofZeros k' := by
  refine ⟨_, ⟨_, .of_foldlM (fun _ _ _ h => h) rfl, ?_, rfl⟩, ?_⟩
  · intro p
    cases p with
    | false => rfl
    | true => rfl
  · intro h
    exact absurd (h.1 false) (by decide)

end Writers

end K439.Fs
