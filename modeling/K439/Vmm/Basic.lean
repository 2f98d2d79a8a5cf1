import Mathlib.Logic.Function.Basic
import Mathlib.Tactic.Common

/-!
# Physical frames and address spaces

`kernel/vmm.cc`. Physical memory is seen by frames: `mem p i` is the 32-bit word `i` of the frame at
the address `p`. The kernel reads it at page-aligned addresses and at indices below 1024 only: the
entries of directories and tables, and `Node::next`, the first word of a free frame. `none` is the
panic "no more frames". Interrupts are off around every update, and `invlpg` has no part here.
-/

namespace K439.Vmm

/-- A call of `PhysMem::alloc` or `PhysMem::free`, with its frame. -/
inductive Call
  | alloc (p : UInt32)
  | free (p : UInt32)
  deriving DecidableEq

/-- `PhysMem`: its static variables and the memory. The calls so far, the latest first, are a
history that no function reads. -/
structure PhysMem where
  mem : UInt32 → Nat → UInt32
  firstFree : UInt32
  avail : UInt32
  limit : UInt32
  calls : List Call

def frameSize : UInt32 := 0x1000

/-- The flags of an entry. -/
def P : UInt32 := 1
def W : UInt32 := 2
def U : UInt32 := 4

/-- `entry & P` -/
def Present (e : UInt32) : Prop := e &&& P ≠ 0

instance (e : UInt32) : Decidable (Present e) := inferInstanceAs (Decidable (_ ≠ _))

/-- `entry & 0xfffff000` -/
def frame (e : UInt32) : UInt32 := e &&& 0xfffff000

/-- `(va >> 22) & 0x3ff` -/
def index0 (va : UInt32) : Nat := ((va >>> 22) &&& 0x3ff).toNat

/-- `(va >> 12) & 0x3ff` -/
def index1 (va : UInt32) : Nat := ((va >>> 12) &&& 0x3ff).toNat

namespace PhysMem

def init (mem : UInt32 → Nat → UInt32) (start limit : UInt32) : PhysMem :=
  { mem := mem, firstFree := 0, avail := start, limit := limit, calls := [] }

/-- `((uint32_t*) p)[i] = x` -/
def write (m : PhysMem) (p : UInt32) (i : Nat) (x : UInt32) : PhysMem :=
  { m with mem := Function.update m.mem p (Function.update (m.mem p) i x) }

/-- `K::bzero((void*)p,FRAME_SIZE)` -/
def bzero (m : PhysMem) (p : UInt32) : PhysMem :=
  { m with mem := Function.update m.mem p fun _ => 0 }

/-- `memcpy((void*)dest,(void*)src,FRAME_SIZE)` -/
def memcpy (m : PhysMem) (dest src : UInt32) : PhysMem :=
  { m with mem := Function.update m.mem dest (m.mem src) }

def alloc (m : PhysMem) : Option (UInt32 × PhysMem) :=
  if m.firstFree ≠ 0 then
    let p := m.firstFree
    some (p, { m with firstFree := m.mem p 0, calls := .alloc p :: m.calls }.bzero p)
  else if m.avail = m.limit then none
  else
    let p := m.avail
    some (p, { m with avail := m.avail + frameSize, calls := .alloc p :: m.calls }.bzero p)

def free (m : PhysMem) (p : UInt32) : PhysMem :=
  { m.write p 0 m.firstFree with firstFree := p, calls := .free p :: m.calls }

end PhysMem

/-! An `AddressSpace` is its page directory `pd`. -/

namespace AddressSpace

variable (m : PhysMem) (pd : UInt32)

/-- The table and the index of the entry for `va`; the table is allocated when it is missing. -/
def getPTE (va : UInt32) : Option ((UInt32 × Nat) × PhysMem) := do
  let i0 := index0 va
  let m ← (if Present (m.mem pd i0) then some m
    else m.alloc.map fun (p, m) => m.write pd i0 (p ||| 7))
  some ((frame (m.mem pd i0), index1 va), m)

def punmap (va : UInt32) : Option PhysMem := do
  let ((pt, i1), m) ← getPTE m pd va
  some (m.write pt i1 0)

def pmap (va pa : UInt32) (forUser forWrite : Bool) : Option PhysMem := do
  let ((pt, i1), m) ← getPTE m pd va
  some (m.write pt i1
    (frame pa ||| (if forUser then U else 0) ||| (if forWrite then W else 0) ||| 1))

/-- The loop of the constructor: the identity mapping of `[va, limit)`. -/
def mapIdentity : Nat → PhysMem → UInt32 → Option PhysMem
  | 0, m, _ => some m
  | fuel + 1, m, va =>
    if va < m.limit then do
      let m ← pmap m pd va va false true
      mapIdentity fuel m (va + frameSize)
    else some m

/-- `AddressSpace::AddressSpace`. There are `2 ^ 20` pages, so the loop has ended by then. -/
def create : Option (UInt32 × PhysMem) := do
  let (pd, m) ← m.alloc
  let m ← mapIdentity pd 0x100000 m frameSize
  some (pd, m)

/-- What `handlePageFault` does with a fault. -/
inductive PageFault
  | mapped (m : PhysMem)
  /-- `Process::current->kill(ERR_PAGE_FAULT)` -/
  | kill
  | panic

def handlePageFault (va : UInt32) : PageFault :=
  if va < 0x1000 then .kill
  else if 0x80000000 ≤ va then
    match (do let (p, m) ← m.alloc; pmap m pd va p true true) with
    | some m => .mapped m
    | none => .panic
  else .panic

/-- `high | (i1 << 12)` -/
def vaOf (i0 i1 : Nat) : UInt32 := (i0.toUInt32 <<< 22) ||| (i1.toUInt32 <<< 12)

/-- The body of the inner loop of `fork`. -/
def forkPage (child pt : UInt32) (i0 : Nat) (m : PhysMem) (i1 : Nat) : Option PhysMem := do
  let pte := m.mem pt i1
  if Present pte then
    let (dest, m) ← m.alloc
    pmap (m.memcpy dest (frame pte)) child (vaOf i0 i1) dest true true
  else some m

def forkTable (child : UInt32) (m : PhysMem) (i0 : Nat) : Option PhysMem :=
  let pde := m.mem pd i0
  if Present pde then (List.range 1024).foldlM (forkPage child (frame pde) i0) m else some m

def fork (child : UInt32) : Option PhysMem :=
  (List.range' 512 512).foldlM (forkTable pd child) m

/-- The body of the inner loop of `exec`. -/
def execPage (pt : UInt32) (m : PhysMem) (i1 : Nat) : PhysMem :=
  let pte := m.mem pt i1
  if Present pte then (m.write pt i1 0).free (frame pte) else m

def execTable (m : PhysMem) (i0 : Nat) : PhysMem :=
  let pde := m.mem pd i0
  if Present pde then (List.range 1024).foldl (execPage (frame pde)) m else m

def exec : PhysMem := (List.range' 512 512).foldl (execTable pd) m

/-- The body of the inner loop of the destructor. -/
def destroyPage (pt : UInt32) (m : PhysMem) (i1 : Nat) : PhysMem :=
  let pte := m.mem pt i1
  if Present pte then m.free (frame pte) else m

def destroyTable (m : PhysMem) (i0 : Nat) : PhysMem :=
  let pde := m.mem pd i0
  if Present pde then
    let m := if 0 < i0 then (List.range 1024).foldl (destroyPage (frame pde)) m else m
    m.free (frame pde)
  else m

/-- `AddressSpace::~AddressSpace` -/
def destroy : PhysMem := ((List.range 1024).foldl (destroyTable pd) m).free pd

/-- The page of `va` is present. -/
def Mapped (va : UInt32) : Prop :=
  Present (m.mem pd (index0 va)) ∧ Present (m.mem (frame (m.mem pd (index0 va))) (index1 va))

instance (va : UInt32) : Decidable (Mapped m pd va) := inferInstanceAs (Decidable (_ ∧ _))

/-- The frame the MMU finds for `va`. -/
def translate (va : UInt32) : UInt32 :=
  frame (m.mem (frame (m.mem pd (index0 va))) (index1 va))

/-- A user-mode store of a word at `va`. -/
def store (va x : UInt32) : PhysMem :=
  m.write (translate m pd va) ((va &&& 0xfff).toNat / 4) x

end AddressSpace

/-- `Child::Child`: a new address space, filled by `parent.fork`. -/
def Child.create (m : PhysMem) (parent : UInt32) : Option (UInt32 × PhysMem) := do
  let (child, m) ← AddressSpace.create m
  let m ← AddressSpace.fork m parent child
  some (child, m)

end K439.Vmm
