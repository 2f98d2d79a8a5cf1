import Mathlib.Logic.Function.Basic
import Mathlib.Tactic.Common

/-!
# The first-fit heap

`kernel/heap.cc` and `user/heap.c`. The two files have the same functions; where the kernel calls
`Debug::panic`, the user library has the call commented out and goes on (`Build.complain`).

`array` is the region as C sees it: an access outside `[0, len)` is the outcome `Fault.wild`, not a
value. Stored ints are mathematical integers. In the kernel every call runs between
`Process::disable` and `Process::enable`, so it is one step here.
-/

namespace K439.Heap

/-- The calls of `Debug::panic` in the heap, with the arguments they print. -/
inductive Panic
  /-- "bad header index %d\n" -/
  | badHeaderIndex (i : Int)
  /-- "bad footer index %d\n" -/
  | badFooterIndex (footer : Int)
  /-- "bad block at %d, %d != %d\n" -/
  | badBlock (i hv fv : Int)
  /-- "block @ %d is not available\n" -/
  | notAvailable (p : Int)
  /-- "heap is full, bytes=0x%x" -/
  | heapIsFull (bytes : UInt32)
  /-- "freeing free block %p %d\n" -/
  | freeingFreeBlock (p idx : Int)
  deriving DecidableEq, Repr

inductive Fault
  | panic (p : Panic)
  /-- `array[i]` is outside the region. -/
  | wild (i : Int)
  /-- The search of `malloc` goes round a cycle of the list. -/
  | diverge
  deriving DecidableEq, Repr

/-- The static variables of the file; `base` is the address of `array`. -/
structure State where
  base : Int
  array : Int → Int
  len : Int
  avail : Int

abbrev HeapM := EStateM Fault State

/-- Which of the two files a function is taken from. -/
inductive Build
  | kernel
  | user
  deriving DecidableEq, Repr

/-- `Debug::panic` does not return; in the user library it is commented out. -/
def Build.complain : Build → Panic → HeapM Unit
  | .kernel, p => throw (.panic p)
  | .user, _ => pure ()

/-- `array[i]` -/
def get (i : Int) : HeapM Int := fun h =>
  if 0 ≤ i ∧ i < h.len then .ok (h.array i) h else .error (.wild i) h

/-- `array[i] = x` -/
def set (i x : Int) : HeapM Unit := fun h =>
  if 0 ≤ i ∧ i < h.len then .ok () { h with array := Function.update h.array i x }
  else .error (.wild i) h

def getLen : HeapM Int := fun h => .ok h.len h

def getBase : HeapM Int := fun h => .ok h.base h

def getAvail : HeapM Int := fun h => .ok h.avail h

def setAvail (x : Int) : HeapM Unit := fun h => .ok () { h with avail := x }

def abs (x : Int) : Int := if x < 0 then -x else x

def size (i : Int) : HeapM Int := do
  return abs (← get i)

def headerFromFooter (i : Int) : HeapM Int := do
  return i - (← size i) + 1

def footerFromHeader (i : Int) : HeapM Int := do
  return i + (← size i) - 1

section
variable (b : Build)

/-- With `safe` set, as both files have it. -/
def sanity (i : Int) : HeapM Int := do
  if i = 0 then return 0
  let len ← getLen
  if i < 0 ∨ len ≤ i then
    b.complain (.badHeaderIndex i)
    return i
  let footer ← footerFromHeader i
  if footer < 0 ∨ len ≤ footer then
    b.complain (.badFooterIndex footer)
    return i
  let hv ← get i
  let fv ← get footer
  if hv ≠ fv then
    b.complain (.badBlock i hv fv)
    return i
  return i

def left (i : Int) : HeapM Int := do
  sanity b (← headerFromFooter (i - 1))

def right (i : Int) : HeapM Int := do
  sanity b (i + (← size i))

def next (i : Int) : HeapM Int := do
  sanity b (← get (i + 1))

def prev (i : Int) : HeapM Int := do
  sanity b (← get (i + 2))

def setNext (i x : Int) : HeapM Unit := set (i + 1) x

def setPrev (i x : Int) : HeapM Unit := set (i + 2) x

def remove (i : Int) : HeapM Unit := do
  let prevIndex ← prev b i
  let nextIndex ← next b i
  if prevIndex = 0 then setAvail nextIndex else setNext prevIndex nextIndex
  if nextIndex ≠ 0 then setPrev nextIndex prevIndex

end

def makeAvail (i ints : Int) : HeapM Unit := do
  set i ints
  set (← footerFromHeader i) ints
  setNext i (← getAvail)
  setPrev i 0
  let avail ← getAvail
  if avail ≠ 0 then setPrev avail i
  setAvail i

def makeTaken (i ints : Int) : HeapM Unit := do
  set i (-ints)
  set (← footerFromHeader i) (-ints)

def isAvail (i : Int) : HeapM Bool := do
  return decide (0 < (← get i))

def isTaken (i : Int) : HeapM Bool := do
  return decide ((← get i) < 0)

/-- The blocks that both `Heap::init` and `heap_init` lay out. -/
def initBlocks : HeapM Unit := do
  let len ← getLen
  makeTaken 0 2
  makeAvail 2 (len - 4)
  makeTaken (len - 2) 2

/-- `Heap::init` -/
def init (base : Int) (bytes : UInt32) : HeapM Unit := do
  modify fun h => { h with base := base, len := bytes.toNat / 4 }
  initBlocks

section
variable (b : Build)

/-- The body of the search loop of `malloc` for a block `p` that is large enough. -/
def take (ints p sz : Int) : HeapM Unit := do
  remove b p
  let extra := sz - ints
  if 4 ≤ extra then
    makeTaken p ints
    makeAvail (p + ints) extra
  else
    makeTaken p sz

/-- The loop of `malloc`: the index of the block taken, if there is one. The list cannot have more
than `len` blocks, so a search that takes more than `len` steps never ends. -/
def search (ints : Int) : Nat → Int → HeapM (Option Int)
  | 0, _ => throw .diverge
  | fuel + 1, p => do
    if p = 0 then return none
    if !(← isAvail p) then b.complain (.notAvailable p)
    let sz ← size p
    if ints ≤ sz then
      take b ints p sz
      return some p
    else search ints fuel (← next b p)

/-- `malloc` from the point where the request is counted in ints. -/
def mallocInts (ints : Int) : HeapM (Option Int) := do
  let p ← getAvail
  let _ ← sanity b p
  search b ints ((← getLen).toNat + 1) p

/-- The address of `array[i]`. -/
def addr (i : Int) : HeapM Int := do
  return (← getBase) + 4 * i

/-- The first coalescing step of `free`: the index and the size of the block that is freed. -/
def absorbLeft (leftIndex idx sz : Int) : HeapM (Int × Int) := do
  if ← isAvail leftIndex then
    remove b leftIndex
    return (leftIndex, sz + (← size leftIndex))
  else return (idx, sz)

/-- The second coalescing step of `free`. -/
def absorbRight (rightIndex sz : Int) : HeapM Int := do
  if ← isAvail rightIndex then
    remove b rightIndex
    return sz + (← size rightIndex)
  else return sz

/-- `free` from the index of the header on. -/
def freeIndex (p idx : Int) : HeapM Unit := do
  let _ ← sanity b idx
  if !(← isTaken idx) then
    b.complain (.freeingFreeBlock p idx)
    return
  let sz ← size idx
  let leftIndex ← left b idx
  let rightIndex ← right b idx
  let (idx, sz) ← absorbLeft b leftIndex idx sz
  let sz ← absorbRight b rightIndex sz
  makeAvail idx sz

end

namespace Kernel

/-- `int ints = ((bytes + 3) / 4) + 2; if (ints < 4) ints = 4;` with the 32-bit sum. -/
def ints (bytes : UInt32) : Int := max 4 ((((bytes + 3) / 4).toNat : Int) + 2)

def malloc (bytes : UInt32) : HeapM Int := do
  if bytes = 0 then return ← getBase
  match ← mallocInts .kernel (ints bytes) with
  | some p => addr (p + 1)
  | none => throw (.panic (.heapIsFull bytes))

def free (p : Int) : HeapM Unit := do
  if p = 0 then return
  let array ← getBase
  if p = array then return
  freeIndex .kernel p ((p - array) % 0x100000000 / 4 - 1)

end Kernel

end K439.Heap
