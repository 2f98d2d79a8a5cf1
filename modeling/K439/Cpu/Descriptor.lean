import K439.Lib.BitField

/-!
# Descriptors

`kernel/mmu.cc`. A `Descriptor` is its two words `f0` and `f1`; `mms` and `mme` write and read the
bits between two positions of a word. `Descriptor.segment` and `Descriptor.gate` are what the
processor makes of the two words.
-/

namespace K439.Cpu

open BitField (Slice put get Lawful Apart)

inductive Word
  | f0
  | f1
  deriving DecidableEq

abbrev Descriptor := Word → BitVec 32

def mask (leftBit rightBit : Nat) : BitVec 32 :=
  let leftBit := leftBit &&& 0x1f
  let rightBit := rightBit &&& 0x1f
  let n := leftBit - rightBit + 1
  (((1 : BitVec 32) <<< n) - 1) <<< rightBit

/-- `mms(&p->k,v,leftBit,rightBit)` -/
def mms (p : Descriptor) (k : Word) (v : BitVec 32) (leftBit rightBit : Nat) : Descriptor :=
  let sm := mask leftBit rightBit
  Function.update p k ((p k &&& ~~~sm) ||| ((v <<< rightBit) &&& sm))

def mme (v : BitVec 32) (leftBit rightBit : Nat) : BitVec 32 :=
  (v &&& mask leftBit rightBit) >>> rightBit

section
variable (p : Descriptor)

def setNullDescriptor : Descriptor := Function.update (Function.update p .f0 0) .f1 0

def setP (v : BitVec 32) : Descriptor := mms p .f1 v 15 15
def getP : BitVec 32 := mme (p .f1) 15 15

def setG (v : BitVec 32) : Descriptor := mms p .f1 v 23 23
def getG : BitVec 32 := mme (p .f1) 23 23

def setD (d : BitVec 32) : Descriptor := mms p .f1 d 22 22
def getD : BitVec 32 := mme (p .f1) 22 22

def setB (d : BitVec 32) : Descriptor := setD p d
def getB : BitVec 32 := getD p

def setSelector (selector : BitVec 32) : Descriptor := mms p .f0 selector 31 16

def setOffset (offset : BitVec 32) : Descriptor :=
  let p := mms p .f0 offset 15 0
  mms p .f1 (offset >>> 16) 31 16

def setBase (base : BitVec 32) : Descriptor :=
  let p := mms p .f0 (base >>> 0) 31 16
  let p := mms p .f1 (base >>> 16) 7 0
  mms p .f1 (base >>> 24) 31 24

def getBase : BitVec 32 :=
  mme (p .f0) 31 16 ||| (mme (p .f1) 7 0 <<< 16) ||| (mme (p .f1) 31 24 <<< 24)

def setLimit (limit : BitVec 32) : Descriptor :=
  let p := mms p .f0 limit 15 0
  mms p .f1 (limit >>> 16) 19 16

def getLimit : BitVec 32 := mme (p .f0) 15 0 ||| (mme (p .f1) 19 16 <<< 16)

def setDPL (dpl : BitVec 32) : Descriptor := mms p .f1 dpl 14 13
def getDPL : BitVec 32 := mme (p .f1) 14 13

def setS (s : BitVec 32) : Descriptor := mms p .f1 s 12 12
def getS : BitVec 32 := mme (p .f1) 12 12

def setType (t : BitVec 32) : Descriptor := mms p .f1 t 11 8
def getType : BitVec 32 := mme (p .f1) 11 8

/-- 1 for code, 0 for data -/
def setK (v : BitVec 32) : Descriptor := mms p .f1 v 11 11
def getK : BitVec 32 := mme (p .f1) 11 11

def setC (v : BitVec 32) : Descriptor := mms p .f1 v 10 10
def getC : BitVec 32 := mme (p .f1) 10 10

def setR (v : BitVec 32) : Descriptor := mms p .f1 v 9 9
def getR : BitVec 32 := mme (p .f1) 9 9

def setA (v : BitVec 32) : Descriptor := mms p .f1 v 8 8
def getA : BitVec 32 := mme (p .f1) 8 8

def setE (v : BitVec 32) : Descriptor := mms p .f1 v 10 10
def getE : BitVec 32 := mme (p .f1) 10 10

def setW (v : BitVec 32) : Descriptor := mms p .f1 v 9 9
def getW : BitVec 32 := mme (p .f1) 9 9

def setCodeDescriptor (base limit dpl : BitVec 32) : Descriptor :=
  let p := setNullDescriptor p
  let p := setBase p base
  let p :=
    if 0xfffff < limit then
      let p := setLimit p (limit >>> 12)
      setG p 1
    else
      let p := setLimit p limit
      setG p 0
  let p := setDPL p dpl
  let p := setP p 1
  let p := setD p 1
  let p := setS p 1
  let p := setK p 1
  let p := setC p 1
  let p := setR p 1
  setA p 0

def setDataDescriptor (base limit dpl : BitVec 32) : Descriptor :=
  let p := setNullDescriptor p
  let p := setBase p base
  let p :=
    if 0xfffff < limit then
      let p := setG p 1
      setLimit p (limit >>> 12)
    else
      let p := setG p 0
      setLimit p limit
  let p := setDPL p dpl
  let p := setP p 1
  let p := setB p 1
  let p := setS p 1
  let p := setK p 0
  let p := setW p 1
  let p := setE p 0
  setA p 0

def setTssDescriptor (base limit : BitVec 32) : Descriptor :=
  let p := setNullDescriptor p
  let p := setBase p base
  let p := setLimit p limit
  let p := setP p 1
  let p := setDPL p 0
  let p := setS p 0
  setType p 0x9

/-- The common part of the gates. -/
def setGateDescriptor (selector offset dpl type : BitVec 32) : Descriptor :=
  let p := setNullDescriptor p
  let p := setSelector p selector
  let p := setOffset p offset
  let p := setP p 1
  let p := setDPL p dpl
  let p := setS p 0
  setType p type

def setTrapDescriptor (selector offset dpl : BitVec 32) : Descriptor :=
  setGateDescriptor p selector offset dpl 0xF

def setInterruptDescriptor (selector offset dpl : BitVec 32) : Descriptor :=
  setGateDescriptor p selector offset dpl 0xE

end

/-- A segment as the processor sees it. -/
structure Segment where
  base : BitVec 32
  limit : BitVec 32
  dpl : BitVec 32
  present : BitVec 32
  s : BitVec 32
  type : BitVec 32
  deriving DecidableEq

/-- A gate as the processor sees it. -/
structure Gate where
  selector : BitVec 32
  offset : BitVec 32
  dpl : BitVec 32
  present : BitVec 32
  s : BitVec 32
  type : BitVec 32
  deriving DecidableEq

namespace Descriptor

variable (p : Descriptor)

/-- With the granularity bit the limit counts pages. -/
def segmentLimit : BitVec 32 := if getG p = 1 then (getLimit p <<< 12) ||| 0xfff else getLimit p

def segment : Segment := ⟨getBase p, p.segmentLimit, getDPL p, getP p, getS p, getType p⟩

def gate : Gate :=
  ⟨mme (p .f0) 31 16, mme (p .f0) 15 0 ||| (mme (p .f1) 31 16 <<< 16), getDPL p, getP p, getS p,
    getType p⟩

end Descriptor

/-! ## The fields -/

/-- What the setters set. -/
inductive Field
  | P | G | D | selector | offset | base | limit | DPL | S | type | K | C | R | A | E | W

namespace Field

def set : Field → Descriptor → BitVec 32 → Descriptor
  | P => setP
  | G => setG
  | D => setD
  | selector => setSelector
  | offset => setOffset
  | base => setBase
  | limit => setLimit
  | DPL => setDPL
  | S => setS
  | type => setType
  | K => setK
  | C => setC
  | R => setR
  | A => setA
  | E => setE
  | W => setW

/-- The bits that a setter writes. -/
def slices : Field → List (Slice Word)
  | P => [⟨.f1, 15, 15, 0⟩]
  | G => [⟨.f1, 23, 23, 0⟩]
  | D => [⟨.f1, 22, 22, 0⟩]
  | selector => [⟨.f0, 31, 16, 0⟩]
  | offset => [⟨.f0, 15, 0, 0⟩, ⟨.f1, 31, 16, 16⟩]
  | base => [⟨.f0, 31, 16, 0⟩, ⟨.f1, 7, 0, 16⟩, ⟨.f1, 31, 24, 24⟩]
  | limit => [⟨.f0, 15, 0, 0⟩, ⟨.f1, 19, 16, 16⟩]
  | DPL => [⟨.f1, 14, 13, 0⟩]
  | S => [⟨.f1, 12, 12, 0⟩]
  | type => [⟨.f1, 11, 8, 0⟩]
  | K => [⟨.f1, 11, 11, 0⟩]
  | C => [⟨.f1, 10, 10, 0⟩]
  | R => [⟨.f1, 9, 9, 0⟩]
  | A => [⟨.f1, 8, 8, 0⟩]
  | E => [⟨.f1, 10, 10, 0⟩]
  | W => [⟨.f1, 9, 9, 0⟩]

/-- The number of bits of the value that are kept. -/
def width : Field → Nat
  | P | G | D | S | K | C | R | A | E | W => 1
  | selector => 16
  | offset | base => 32
  | limit => 20
  | DPL => 2
  | type => 4

variable {p : Descriptor} {v u : BitVec 32} {leftBit rightBit n : Nat} {k : Word}

theorem mask_eq (hl : leftBit < 32) (hr : rightBit < 32) :
    mask leftBit rightBit = BitField.mask 32 leftBit rightBit := by
  have hmask : ∀ i < 32, i &&& 0x1f = i :=
    fun i hi => (Nat.and_two_pow_sub_one_eq_mod i 5).trans (Nat.mod_eq_of_lt hi)
  rw [mask, hmask _ hl, hmask _ hr]
  rfl

theorem mms_eq (hl : leftBit < 32) (hr : rightBit < 32) :
    mms p k (v >>> n) leftBit rightBit = BitField.putSlice v p ⟨k, leftBit, rightBit, n⟩ := by
  rw [mms, mask_eq hl hr]
  rfl

theorem mms_eq_zero (hl : leftBit < 32) (hr : rightBit < 32) :
    mms p k v leftBit rightBit = BitField.putSlice v p ⟨k, leftBit, rightBit, 0⟩ := by
  rw [← mms_eq hl hr, BitVec.ushiftRight_zero]

theorem mme_eq (hl : leftBit < 32) (hr : rightBit < 32) :
    mme v leftBit rightBit = BitField.extract v leftBit rightBit := by
  rw [mme, mask_eq hl hr]
  rfl

theorem set_eq (a : Field) : a.set p v = put a.slices p v := by
  have hzero : ∀ {p k l r}, l < 32 → r < 32 →
      mms p k v l r = BitField.putSlice v p ⟨k, l, r, 0⟩ := mms_eq_zero
  cases a with
  | selector => exact hzero (by decide) (by decide)
  | offset =>
    simp only [set, setOffset]
    rw [mms_eq (by decide) (by decide), mms_eq_zero (by decide) (by decide)]
    rfl
  | limit =>
    simp only [set, setLimit]
    rw [mms_eq (by decide) (by decide), mms_eq_zero (by decide) (by decide)]
    rfl
  | base =>
    simp only [set, setBase]
    rw [mms_eq (by decide) (by decide), mms_eq (by decide) (by decide),
      mms_eq (by decide) (by decide)]
    rfl
  | _ => exact hzero (by decide) (by decide)

theorem lawful (a : Field) : Lawful 32 a.slices a.width := by
  constructor
  all_goals (cases a <;> decide)

/-- Setters of disjoint bit ranges commute. -/
theorem set_comm {a b : Field} (h : Apart a.slices b.slices) :
    a.set (b.set p u) v = b.set (a.set p v) u := by
  rw [set_eq, set_eq, set_eq, set_eq]
  exact BitField.put_comm a.lawful.inside b.lawful.inside a.lawful.apart b.lawful.apart h

/-- What the processor reads. -/
def get (a : Field) (p : Descriptor) : BitVec 32 := BitField.get a.slices p

theorem get_set (a : Field) : a.get (a.set p v) = (v.setWidth a.width).setWidth 32 := by
  rw [set_eq]
  exact BitField.get_put a.lawful

theorem get_set_of_lt (a : Field) (h : v.toNat < 2 ^ a.width) : a.get (a.set p v) = v := by
  rw [set_eq]
  exact BitField.get_put_of_lt a.lawful h

theorem get_set_of_apart {a b : Field} (h : Apart a.slices b.slices) :
    a.get (b.set p v) = a.get p := by
  rw [set_eq]
  exact BitField.get_put_of_apart a.lawful.inside b.lawful.inside h

theorem get_type :
    type.get p = (K.get p <<< 3) ||| (C.get p <<< 2) ||| (R.get p <<< 1) ||| A.get p := by
  have hsplit : ∀ v : BitVec 32, BitField.extract v 11 8 = (BitField.extract v 11 11 <<< 3) |||
      (BitField.extract v 10 10 <<< 2) ||| (BitField.extract v 9 9 <<< 1) ||| BitField.extract v 8
        8 := by
    intro v
    have h₁ : BitField.extract v 11 8 =
        BitField.extract v 11 9 <<< 1 ||| BitField.extract v 8 8 :=
      BitField.extract_split (by decide) (by decide) (by decide)
    have h₂ : BitField.extract v 11 9 =
        BitField.extract v 11 10 <<< 1 ||| BitField.extract v 9 9 :=
      BitField.extract_split (by decide) (by decide) (by decide)
    have h₃ : BitField.extract v 11 10 =
        BitField.extract v 11 11 <<< 1 ||| BitField.extract v 10 10 :=
      BitField.extract_split (by decide) (by decide) (by decide)
    rw [h₁, h₂, h₃]
    simp only [BitVec.shiftLeft_or_distrib, ← BitVec.shiftLeft_add, Nat.reduceAdd]
  simpa [get, BitField.get, slices] using hsplit (p .f1)

end Field

/-! ## Decoding -/

variable {p : Descriptor} {base limit selector offset dpl type v : BitVec 32}

theorem segment_eq : p.segment = ⟨Field.base.get p,
    if Field.G.get p = 1 then (Field.limit.get p <<< 12) ||| 0xfff else Field.limit.get p,
    Field.DPL.get p, Field.P.get p, Field.S.get p, Field.type.get p⟩ := by
  simp [Descriptor.segment, Descriptor.segmentLimit, getBase, getLimit, getG, getDPL, getP, getS,
    getType, Field.mme_eq, Field.get, BitField.get, Field.slices, BitVec.or_assoc]

theorem gate_eq :
    p.gate = ⟨Field.selector.get p, Field.offset.get p, Field.DPL.get p, Field.P.get p,
      Field.S.get p, Field.type.get p⟩ := by
  simp [Descriptor.gate, getDPL, getP, getS, getType, Field.mme_eq, Field.get, BitField.get,
    Field.slices]

/-- A limit of up to twenty bits is kept, a greater one is rounded up to whole pages. -/
def roundLimit (limit : BitVec 32) : BitVec 32 :=
  if limit ≤ 0xfffff then limit else limit ||| 0xfff

theorem pages_eq (limit : BitVec 32) : ((limit >>> 12) <<< 12) ||| 0xfff = limit ||| 0xfff := by
  refine BitVec.eq_of_getLsbD_eq fun i hi => ?_
  have hlow : (0xfff : BitVec 32).getLsbD i = decide (i < 12) := by
    simp [← BitVec.testBit_toNat, Nat.testBit_two_pow_sub_one 12 i]
  simp only [BitVec.getLsbD_or, BitVec.getLsbD_shiftLeft, BitVec.getLsbD_ushiftRight, hlow]
  by_cases h : i < 12
  · simp [h]
  · simp [h, hi, Nat.add_sub_cancel' (Nat.le_of_not_lt h)]

/-- What the two builders of segments do about the limit. -/
structure Limited (p : Descriptor) (base limit : BitVec 32) : Prop where
  base : Field.base.get p = base
  limit : (if Field.G.get p = 1 then (Field.limit.get p <<< 12) ||| 0xfff else Field.limit.get p) =
    roundLimit limit

theorem Limited.of_get (hbase : Field.base.get p = base)
    (hG : Field.G.get p = if 0xfffff < limit then 1 else 0)
    (hlimit : Field.limit.get p = if 0xfffff < limit then limit >>> 12 else limit) :
    Limited p base limit := by
  refine ⟨hbase, ?_⟩
  rw [hG, hlimit, roundLimit]
  by_cases h : 0xfffff < limit
  · rw [if_pos h, if_pos h, if_pos rfl, if_neg (BitVec.not_le.mpr h), pages_eq]
  · rw [if_neg h, if_neg h, if_neg (by decide), if_pos (BitVec.not_lt.mp h)]

theorem get_base : Field.base.get (Field.base.set p base) = base := Field.get_set_of_lt _ base.isLt

theorem get_DPL (h : dpl < 4) : Field.DPL.get (Field.DPL.set p dpl) = dpl := Field.get_set_of_lt _ h

theorem get_pages : Field.limit.get (Field.limit.set p (limit >>> 12)) = limit >>> 12 := by
  refine Field.get_set_of_lt _ ?_
  rw [BitVec.toNat_ushiftRight, Nat.shiftRight_eq_div_pow]
  exact Nat.div_lt_of_lt_mul limit.isLt

theorem get_limit (h : limit ≤ 0xfffff) : Field.limit.get (Field.limit.set p limit) = limit :=
  Field.get_set_of_lt _ (Nat.lt_succ_of_le h)

theorem setCodeDescriptor_segment (h : dpl < 4) :
    (setCodeDescriptor p base limit dpl).segment =
    ⟨base, roundLimit limit, dpl, 1, 1, 0xE⟩ := by
  obtain ⟨q, hq, L⟩ :
      ∃ q, setCodeDescriptor p base limit dpl = Field.A.set (Field.R.set (Field.C.set (Field.K.set
      (Field.S.set (Field.D.set (Field.P.set (Field.DPL.set q dpl) 1) 1) 1) 1) 1) 1) 0 ∧
        Limited q base limit := by
    refine ⟨if 0xfffff < limit then Field.G.set
      (Field.limit.set (Field.base.set (setNullDescriptor p) base) (limit >>> 12)) 1
      else Field.G.set (Field.limit.set (Field.base.set (setNullDescriptor p) base) limit) 0, rfl,
        ?_⟩
    split
    next hlt =>
      refine .of_get ?_ ?_ ?_
      all_goals simp (disch := decide) only [Field.get_set_of_apart, Field.get_set_of_lt, get_base,
        get_pages, hlt, if_true]
    next hle =>
      refine .of_get ?_ ?_ ?_
      all_goals simp (disch := decide) only [Field.get_set_of_apart, Field.get_set_of_lt, get_base,
        get_limit (BitVec.not_lt.mp hle), hle, if_false]
  rw [hq, segment_eq, Field.get_type]
  simp (disch := decide) only [Field.get_set_of_apart, Field.get_set_of_lt, get_DPL h,
    L.base, L.limit]
  rfl

theorem setDataDescriptor_segment (h : dpl < 4) :
    (setDataDescriptor p base limit dpl).segment =
    ⟨base, roundLimit limit, dpl, 1, 1, 0x2⟩ := by
  obtain ⟨q, hq, L⟩ :
      ∃ q, setDataDescriptor p base limit dpl = Field.A.set (Field.E.set (Field.W.set (Field.K.set
      (Field.S.set (Field.D.set (Field.P.set (Field.DPL.set q dpl) 1) 1) 1) 0) 1) 0) 0 ∧
        Limited q base limit := by
    refine ⟨if 0xfffff < limit then Field.limit.set
      (Field.G.set (Field.base.set (setNullDescriptor p) base) 1) (limit >>> 12)
      else Field.limit.set (Field.G.set (Field.base.set (setNullDescriptor p) base) 0) limit, rfl,
        ?_⟩
    split
    next hlt =>
      refine .of_get ?_ ?_ ?_
      all_goals simp (disch := decide) only [Field.get_set_of_apart, Field.get_set_of_lt, get_base,
        get_pages, hlt, if_true]
    next hle =>
      refine .of_get ?_ ?_ ?_
      all_goals simp (disch := decide) only [Field.get_set_of_apart, Field.get_set_of_lt, get_base,
        get_limit (BitVec.not_lt.mp hle), hle, if_false]
  have hE : ∀ p, Field.C.get p = Field.E.get p := fun _ => rfl
  have hW : ∀ p, Field.R.get p = Field.W.get p := fun _ => rfl
  rw [hq, segment_eq, Field.get_type, hE, hW]
  simp (disch := decide) only [Field.get_set_of_apart, Field.get_set_of_lt, get_DPL h,
    L.base, L.limit]
  rfl

theorem setTssDescriptor_segment (h : limit ≤ 0xfffff) :
    (setTssDescriptor p base limit).segment = ⟨base, limit, 0, 1, 0, 0x9⟩ := by
  have hq : setTssDescriptor p base limit =
      Field.type.set (Field.S.set (Field.DPL.set (Field.P.set (Field.limit.set
      (Field.base.set (setNullDescriptor p) base) limit) 1) 0) 0) 0x9 := rfl
  have hG : Field.G.get (setNullDescriptor p) = 0 := by
    simp [Field.get, BitField.get, BitField.extract, Field.slices, setNullDescriptor]
  rw [hq, segment_eq]
  simp (disch := decide) only [Field.get_set_of_apart, Field.get_set_of_lt, get_base,
    get_limit h, hG]
  rfl

theorem setGateDescriptor_gate (h : dpl < 4) (ht : type.toNat < 2 ^ 4) :
    (setGateDescriptor p selector offset dpl type).gate =
    ⟨selector &&& 0xffff, offset, dpl, 1, 0, type⟩ := by
  have hq : setGateDescriptor p selector offset dpl type =
      Field.type.set (Field.S.set (Field.DPL.set (Field.P.set
      (Field.offset.set (Field.selector.set (setNullDescriptor p) selector) offset) 1) dpl) 0)
        type := rfl
  have hoffset : ∀ p, Field.offset.get (Field.offset.set p offset) = offset :=
    fun _ => Field.get_set_of_lt _ offset.isLt
  have htype : ∀ p, Field.type.get (Field.type.set p type) = type :=
    fun _ => Field.get_set_of_lt _ ht
  have hselector : (selector.setWidth 16).setWidth 32 = selector &&& 0xffff := by
    refine BitVec.eq_of_toNat_eq ?_
    rw [BitVec.toNat_setWidth, BitVec.toNat_setWidth, BitVec.toNat_and]
    have hlt : selector.toNat % 2 ^ 16 < 2 ^ 16 := Nat.mod_lt _ (by decide)
    rw [Nat.mod_eq_of_lt (Nat.lt_trans hlt (by decide))]
    exact (Nat.and_two_pow_sub_one_eq_mod selector.toNat 16).symm
  rw [hq, gate_eq]
  simp (disch := decide) only [Field.get_set_of_apart, Field.get_set_of_lt, get_DPL h, hoffset,
    htype, Field.get_set]
  exact congrArg (Gate.mk · offset dpl 1 0 type) hselector

/-- What the builders encode, the processor decodes; and setters of disjoint bit ranges commute. -/
theorem descriptors_decode (p : Descriptor) (base limit selector offset dpl : BitVec 32)
    (hdpl : dpl < 4) :
    (setCodeDescriptor p base limit dpl).segment = ⟨base, roundLimit limit, dpl, 1, 1, 0xE⟩ ∧
    (setDataDescriptor p base limit dpl).segment = ⟨base, roundLimit limit, dpl, 1, 1, 0x2⟩ ∧
    (limit ≤ 0xfffff → (setTssDescriptor p base limit).segment =
      ⟨base, limit, 0, 1, 0, 0x9⟩) ∧
    (setTrapDescriptor p selector offset dpl).gate =
    ⟨selector &&& 0xffff, offset, dpl, 1, 0, 0xF⟩ ∧
    (setInterruptDescriptor p selector offset dpl).gate =
    ⟨selector &&& 0xffff, offset, dpl, 1, 0, 0xE⟩ ∧
    ∀ (a b : Field) (v u : BitVec 32), Apart a.slices b.slices →
    a.set (b.set p u) v = b.set (a.set p v) u :=
  ⟨setCodeDescriptor_segment hdpl, setDataDescriptor_segment hdpl, setTssDescriptor_segment,
    setGateDescriptor_gate hdpl (by decide), setGateDescriptor_gate hdpl (by decide),
      fun _ _ _ _ => Field.set_comm⟩

/-- A flat code segment of user mode, and a task state segment. -/
theorem descriptors_decode_user :
    (setCodeDescriptor (fun _ => 0) 0 0xffffffff 3).segment = ⟨0, 0xffffffff, 3, 1, 1, 0xE⟩ ∧
    (setTssDescriptor (fun _ => 0) 0x104000 0x68).segment = ⟨0x104000, 0x68, 0, 1, 0, 0x9⟩ := by
  obtain ⟨hcode, -⟩ := descriptors_decode (fun _ => 0) 0 0xffffffff 0 0 3 (by decide)
  obtain ⟨-, -, htss, -⟩ := descriptors_decode (fun _ => 0) 0x104000 0x68 0 0 0 (by decide)
  exact ⟨hcode, htss (by decide)⟩

end K439.Cpu
