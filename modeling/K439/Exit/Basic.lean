import Mathlib.Logic.Function.Basic
import Mathlib.Tactic.Common

/-!
# How a process exits

`Process::exit`, `kill` and `checkKilled` of `kernel/process.cc` with `closeAll` and
`closeWorkingDir` of `kernel/table.cc`, seen from one process. The table belongs to it alone. It
runs in small steps, between which a timer interrupt may fall while its interrupts are on, and a
destructor run by `Resource::unref` may block. Both take it off the processor; when it is
dispatched again, `dispatch` calls `checkKilled`.
-/

namespace K439.Exit

inductive ResourceType
  | PROCESS
  | SEMAPHORE
  | FILE
  | DIRECTORY
  | TABLE
  | OTHER
  deriving DecidableEq

def ERR_PAGE_FAULT : Int := -1005

/-- Where a call of `kill` or of `exit` on the kernel stack stands: what it does next. -/
inductive Pc
  /-- `checkKilled()` at the end of `kill` -/
  | check
  /-- `mutex.lock()` in `closeAll` -/
  | lockAll
  | unref (i : Nat)
  /-- `array[i] = nullptr` -/
  | clear (i : Nat)
  | unlockAll
  /-- `mutex.lock()` in `closeWorkingDir` -/
  | lockDir
  /-- the read of `array[1]->type` -/
  | readDir
  /-- `mutex.unlock(); return ERR_NOT_DIR;` -/
  | unlockNotDir
  | unrefDir
  | clearDir
  | unlockDir
  | onExit
  | signal
  /-- from `Process::disable()` on -/
  | finish
  deriving DecidableEq

inductive Status
  | running
  /-- in the queue of its own table mutex -/
  | blocked
  | panicked
  | terminated
  deriving DecidableEq

structure Proc where
  /-- the size of the table -/
  n : Nat
  array : Nat → Option ResourceType
  /-- the count of the mutex of the table -/
  mutex : Nat
  isKilled : Bool
  killCode : Int
  exitCode : Int
  disableCount : Nat
  iDepth : Nat
  status : Status
  /-- the calls on the kernel stack, the innermost first; none while it runs its own code -/
  stack : List Pc
  /-- how often each body was entered, `doneEvent` signalled, and a null slot read -/
  entered : Nat
  closeAlls : Nat
  closeWorkingDirs : Nat
  signals : Nat
  nullReads : Nat

namespace Proc

variable (p : Proc)

/-- The call of `exit`. -/
def exit (code : Int) : Proc :=
  { p with exitCode := code, stack := .lockAll :: p.stack, entered := p.entered + 1 }

/-- What `dispatch` and `kill` end with; `checkReaper` and `onKill` do nothing to the process. -/
def checkKilled : Proc := if p.isKilled then p.exit p.killCode else p

/-- `kill` up to `checkKilled`. -/
def kill (code : Int) : Proc :=
  { p with
    isKilled := true
    killCode := if p.isKilled then p.killCode else code
    stack := .check :: p.stack }

/-- The page fault handler for an address below `0x1000`. -/
def pageFault : Proc := p.kill ERR_PAGE_FAULT

def goto (pc : Pc) : Proc := { p with stack := pc :: p.stack.tail }

/-- `mutex.lock()`, then `pc`. Nobody else unlocks the mutex of the table. -/
def lock (pc : Pc) : Proc :=
  if p.mutex = 0 then
    if p.iDepth ≠ 0 then { p with status := .panicked } else { p with status := .blocked }
  else { p with mutex := p.mutex - 1 }.goto pc

def unlock (pc : Pc) : Proc := { p with mutex := p.mutex + 1 }.goto pc

/-- The loop of `closeAll` at `i`. -/
def loop (i : Nat) : Proc := p.goto (if i < p.n then .unref i else .unlockAll)

/-- One step of the innermost call. -/
def step : Pc → Proc
  | .check => if p.isKilled then p.checkKilled else { p with stack := p.stack.tail }
  | .lockAll =>
    { p with closeAlls := p.closeAlls + 1 }.lock (if 2 < p.n then .unref 2 else .unlockAll)
  | .unref i => p.goto (.clear i)
  | .clear i => { p with array := Function.update p.array i none }.loop (i + 1)
  | .unlockAll => p.unlock .lockDir
  | .lockDir => { p with closeWorkingDirs := p.closeWorkingDirs + 1 }.lock .readDir
  | .readDir =>
    match p.array 1 with
    | none => { p with nullReads := p.nullReads + 1 }.pageFault
    | some type => p.goto (if type ≠ .DIRECTORY then .unlockNotDir else .unrefDir)
  | .unlockNotDir => p.unlock .onExit
  | .unrefDir => p.goto .clearDir
  | .clearDir => { p with array := Function.update p.array 1 none }.goto .unlockDir
  | .unlockDir => p.unlock .onExit
  | .onExit => p.goto .signal
  | .signal => { p with signals := p.signals + 1 }.goto .finish
  | .finish => { p with status := .terminated }

/-- A timer interrupt: `startIrq`, `yield`, and `checkKilled` after the dispatch; `endIrq` if the
process is not killed. -/
def timer : Proc :=
  if p.isKilled then { p with disableCount := 2, iDepth := p.iDepth + 1 }.checkKilled else p

/-- A destructor goes through `down` and `yield`, and `checkKilled` after the dispatch. -/
def block : Proc :=
  if p.iDepth ≠ 0 then { p with status := .panicked }
  else if p.isKilled then { p with disableCount := p.disableCount + 2 }.checkKilled
  else p

/-- The slot whose destructor is about to run. -/
def unrefSlot : Option Nat :=
  match p.stack with
  | .unref i :: _ => some i
  | .unrefDir :: _ => some 1
  | _ => none

/-- A process that runs its own code, with a working directory in slot 1 and its table unlocked. -/
def init (n : Nat) (slots : Nat → Option ResourceType) (workingDir : ResourceType)
    (disableCount : Nat) : Proc where
  n := n
  array := Function.update slots 1 (some workingDir)
  mutex := 1
  isKilled := false
  killCode := 0
  exitCode := 0
  disableCount := disableCount
  iDepth := 0
  status := .running
  stack := []
  entered := 0
  closeAlls := 0
  closeWorkingDirs := 0
  signals := 0
  nullReads := 0

end Proc

inductive Event
  /-- its own code calls `exit` -/
  | exit (code : Int)
  /-- its own code touches an address below `0x1000` -/
  | fault
  | step
  | timer
  | block
  deriving DecidableEq

/-- The process after an event that can happen. -/
def Event.next (p : Proc) (e : Event) : Option Proc :=
  if p.status ≠ .running then none
  else match e with
    | .exit code => if p.stack = [] then some (p.exit code) else none
    | .fault => if p.stack = [] then some p.pageFault else none
    | .step => p.stack.head?.map p.step
    | .timer => if p.disableCount = 0 then some p.timer else none
    | .block => if (p.unrefSlot.bind p.array).isSome then some p.block else none

def Step (p : Proc) (e : Event) (q : Proc) : Prop := e.next p = some q

end K439.Exit
