import K439.Exit.Basic

/-!
# Objects with reference counts

`Resource::ref` and `unref` of `kernel/resource.h`, with the objects that `kernel/fs.cc` makes: one
`OpenFile` for a start block, which `openFiles` holds, and the `Fat439File` and `Fat439Directory`
objects that refer to it. An object is known by a number that is not used again. The log says when
an object is used and when it is deleted.
-/

namespace K439.Handles

open Exit (ResourceType)

abbrev Id := Nat

/-- What is done to an object. -/
inductive Event
  | use (r : Id)
  | delete (r : Id)
  deriving DecidableEq

def Event.id : Event → Id
  | use r => r
  | delete r => r

structure Resource where
  type : ResourceType
  /-- a `uint32_t` -/
  count : Nat
  deleted : Bool
  /-- the `openFile` of a `Fat439File`, the `content` of a `Fat439Directory` -/
  openFile : Id
  /-- the `start` of an `OpenFile` -/
  start : Nat
  /-- the `offset` of a `File` -/
  offset : Nat

structure Objects where
  resources : Id → Resource
  /-- the number of the next object -/
  next : Id
  openFiles : Nat → Option Id
  log : List Event

namespace Objects

variable (s : Objects)

def use (r : Id) : Objects := { s with log := s.log ++ [.use r] }

def setCount (r : Id) (count : Nat) : Objects :=
  { s with resources := Function.update s.resources r { s.resources r with count := count } }

def delete (r : Id) : Objects :=
  { s with
    resources := Function.update s.resources r { s.resources r with deleted := true }
    log := s.log ++ [.delete r] }

/-- A new object. -/
def make (x : Resource) : Id × Objects :=
  (s.next, { s with resources := Function.update s.resources s.next x, next := s.next + 1 })

/-- `Resource::ref` -/
def ref (r : Id) : Objects := (s.use r).setCount r (((s.resources r).count + 1) % 0x100000000)

/-- `getThenAdd(-1)`; the last reference deletes the object. Whether it is deleted. -/
def release (r : Id) : Bool × Objects :=
  let old := (s.resources r).count
  let s := (s.use r).setCount r ((old + 0xffffffff) % 0x100000000)
  if old = 1 then (true, s.delete r) else (false, s)

def openFile (start : Nat) : Id × Objects :=
  let (p, s) := match s.openFiles start with
    | some p => (p, s)
    | none =>
      let (p, s) := s.make
        { type := .OTHER, count := 0, deleted := false, openFile := 0, start := start, offset := 0 }
      (p, { s with openFiles := Function.update s.openFiles start (some p) })
  (p, s.ref p)

/-- The destructor of an `OpenFile` does nothing. -/
def closeFile (p : Id) : Objects :=
  let s := s.use p
  let start := (s.resources p).start
  match s.openFiles start with
  | none => s
  | some q =>
    let (deleted, s) := s.release q
    { s with openFiles := Function.update s.openFiles start (if deleted then none else some q) }

/-- The destructor that `delete` runs. That of a process finds its table empty, and the others do
nothing. -/
def destructor (r : Id) : Objects :=
  match (s.resources r).type with
  | .FILE => s.closeFile (s.resources r).openFile
  | _ => s

/-- `Resource::unref` -/
def unref : Option Id → Objects
  | none => s
  | some r =>
    let (deleted, s) := s.release r
    if deleted then s.destructor r else s

/-- `new Fat439File(p)` -/
def newFile (p : Id) : Id × Objects :=
  (s.use p).make
    { type := .FILE, count := 0, deleted := false, openFile := p, start := 0, offset := 0 }

/-- `new Fat439Directory(fs, start)`, when `content` is opened -/
def newDirectory (p : Id) : Id × Objects :=
  (s.use p).make
    { type := .DIRECTORY, count := 0, deleted := false, openFile := p, start := 0, offset := 0 }

/-- `Fat439File::forkMe` from `new` on. -/
def cloneFile (f : Id) : Id × Objects :=
  let (other, s) := s.newFile (s.resources f).openFile
  let s := s.use f
  let x := { s.resources other with
    offset := (s.resources f).offset
    count := (s.resources f).count }
  (other, { s with resources := Function.update s.resources other x })

/-- `forkMe` of the class of the object. -/
def forkMe (r : Id) : Option Id × Objects :=
  let s := s.use r
  match (s.resources r).type with
  | .PROCESS => (none, s)
  | .FILE =>
    let (other, s) := (s.ref (s.resources r).openFile).cloneFile r
    (some other, s)
  | _ => (some r, s.ref r)

/-- The object exists. -/
def Live (r : Id) : Prop := r < s.next ∧ (s.resources r).deleted = false

instance (r : Id) : Decidable (s.Live r) := inferInstanceAs (Decidable (_ ∧ _))

/-- `f` is a `Fat439File` or a `Fat439Directory` that refers to `p`. -/
def Handle (f p : Id) : Prop :=
  s.Live f ∧ ((s.resources f).type = .FILE ∨ (s.resources f).type = .DIRECTORY) ∧
    (s.resources f).openFile = p

instance (f p : Id) : Decidable (s.Handle f p) := inferInstanceAs (Decidable (_ ∧ _ ∧ _))

end Objects

end K439.Handles
