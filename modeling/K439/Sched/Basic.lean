import Mathlib.Data.List.Count
import Mathlib.Logic.Function.Basic
import Mathlib.Tactic.Common

/-!
# The scheduler

`kernel/process.cc`, `kernel/semaphore.cc` and `Pit::handler`. Every function runs with interrupts
off, so it is one step. `none` is a panic. The histories at the end of `Machine` are read by no
function.
-/

namespace K439.Sched

/-- A process, by the number of its construction. -/
abbrev Pid := Nat

/-- `Process::State` -/
inductive State
  | READY
  | RUNNING
  | BLOCKED
  | TERMINATED
  deriving DecidableEq

structure Timer where
  target : UInt32
  waiting : List Pid

structure Semaphore where
  count : Int32
  waiting : List Pid

/-- The queues a process can block on. Timers are found by their target. -/
inductive WaitQueue
  | sem (s : Nat)
  | timer (target : UInt32)
  deriving DecidableEq

structure Machine where
  nextId : Pid
  state : Pid → State
  iDepth : Pid → UInt32
  current : Option Pid
  idleProcess : Option Pid
  readyQueue : List Pid
  reaperQueue : List Pid
  timers : List Timer
  sems : Nat → Semaphore
  jiffies : UInt32
  hz : UInt32
  idleJiffies : UInt32
  /-- the processes `start` was called for -/
  started : List Pid
  /-- the calls of `makeReady` and of `dispatch`, in order -/
  readied : List Pid
  dispatched : List Pid
  /-- the processes taken from the reaper queue -/
  reaped : List Pid

namespace Machine

variable (m : Machine)

def makeReady (p : Pid) : Machine :=
  let m := { m with state := Function.update m.state p .READY, readied := m.readied ++ [p] }
  if some p ≠ m.idleProcess then { m with readyQueue := m.readyQueue ++ [p] } else m

def start (p : Pid) : Machine := { m.makeReady p with started := m.started ++ [p] }

/-- `idleProcess = new IdleProcess(); idleProcess->start();` -/
def newIdleProcess : Machine :=
  { m with nextId := m.nextId + 1, idleProcess := some m.nextId }.start m.nextId

def setSem (s : Nat) (x : Semaphore) : Machine := { m with sems := Function.update m.sems s x }

/-- The `addTail` of a wait queue. -/
def addTail (p : Pid) : WaitQueue → Machine
  | .sem s =>
    m.setSem s { m.sems s with waiting := (m.sems s).waiting ++ [p] }
  | .timer target => { m with timers := go target m.timers }
where
  go (target : UInt32) : List Timer → List Timer
    | [] => []
    | t :: ts =>
      if t.target = target then { t with waiting := t.waiting ++ [p] } :: ts else t :: go target ts

/-- `p->dispatch(prev)` up to the context switch. What follows in the context of `p`, `checkKilled`,
are later steps. -/
def dispatch (p : Pid) (prev : Option Pid) : Machine :=
  { m with
    state := Function.update m.state p .RUNNING
    current := if some p ≠ prev then some p else m.current
    dispatched := m.dispatched ++ [p] }

/-- What `yield` does with the current process. -/
def leave (q : Option WaitQueue) : Option Machine :=
  match m.current, q with
  | none, _ => some m
  | some me, some q =>
    if m.iDepth me ≠ 0 then none
    else some ({ m with state := Function.update m.state me .BLOCKED }.addTail me q)
  | some me, none => some (m.makeReady me)

/-- The rest of `yield`: the next process is dispatched. -/
def switch (me : Option Pid) : Machine :=
  match m.readyQueue with
  | [] =>
    match m.idleProcess with
    | some idle => m.dispatch idle me
    | none => m.newIdleProcess.dispatch m.nextId me
  | next :: readyQueue => { m with readyQueue := readyQueue }.dispatch next me

/-- `yield(q)`; `yield()` is `yield(nullptr)`. -/
def yield (q : Option WaitQueue) : Option Machine := do
  let m' ← m.leave q
  some (m'.switch m.current)

/-- `Semaphore::down` -/
def down (s : Nat) : Option Machine :=
  if (m.sems s).count = 0 then
    if m.current = none then none else m.yield (some (.sem s))
  else some (m.setSem s { m.sems s with count := (m.sems s).count - 1 })

/-- `Semaphore::up` -/
def up (s : Nat) : Machine :=
  match (m.sems s).waiting with
  | [] => m.setSem s { m.sems s with count := (m.sems s).count + 1 }
  | p :: waiting => (m.setSem s { m.sems s with waiting := waiting }).makeReady p

/-- The search of `sleepUntil` for its timer, which is entered in its place if it is missing. -/
def findTimer (target : UInt32) : List Timer → List Timer
  | [] => [{ target := target, waiting := [] }]
  | t :: ts =>
    if t.target = target then t :: ts
    else if target < t.target then { target := target, waiting := [] } :: t :: ts
    else t :: findTimer target ts

def sleepUntil (second : UInt32) : Option Machine :=
  let target := second * m.hz
  if m.jiffies < target then
    { m with timers := findTimer target m.timers }.yield (some (.timer target))
  else some m

/-- The second half of `tick`. -/
def fire : Machine :=
  match m.timers with
  | [] => m
  | first :: timers =>
    if m.jiffies = first.target then first.waiting.foldl makeReady { m with timers := timers }
      else m

def tick : Machine :=
  if m.current = m.idleProcess then { m with idleJiffies := m.idleJiffies + 1 }.fire else m.fire

/-- `Pit::handler` -/
def handler : Machine := { m with jiffies := m.jiffies + 1 }.tick

/-- The part of `exit` after `doneEvent.signal()`, which is an `up`. -/
def exit : Option Machine :=
  match m.current with
  | none => some m
  | some p =>
    { m with
      reaperQueue := m.reaperQueue ++ [p]
      state := Function.update m.state p .TERMINATED
      current := none }.yield none

/-- One turn of the loop of `checkReaper`. -/
def checkReaper : Machine :=
  match m.reaperQueue with
  | [] => m
  | kill :: reaperQueue => { m with reaperQueue := reaperQueue, reaped := m.reaped ++ [kill] }

def startIrq : Option Machine :=
  m.current.map fun me => { m with iDepth := Function.update m.iDepth me (m.iDepth me + 1) }

def endIrq : Machine :=
  match m.current with
  | none => m
  | some me => { m with iDepth := Function.update m.iDepth me (m.iDepth me - 1) }

/-- The processes in a wait queue. -/
def waiting : WaitQueue → List Pid
  | .sem s => (m.sems s).waiting
  | .timer target => (m.timers.filter (·.target = target)).flatMap (·.waiting)

end Machine

inductive Op
  /-- the constructor of `Process` -/
  | construct
  | start (p : Pid)
  /-- the idle process is made by `kernelMain` -/
  | boot
  | yield
  | yieldOn (q : WaitQueue)
  | down (s : Nat)
  | up (s : Nat)
  | sleepUntil (second : UInt32)
  | tick
  | exit
  | checkReaper
  | startIrq
  | endIrq

def Op.exec (m : Machine) : Op → Option Machine
  | .construct => some { m with nextId := m.nextId + 1 }
  | .start p => some (m.start p)
  | .boot => some m.newIdleProcess
  | .yield => m.yield none
  | .yieldOn q => m.yield (some q)
  | .down s => m.down s
  | .up s => some (m.up s)
  | .sleepUntil second => m.sleepUntil second
  | .tick => some m.handler
  | .exit => m.exit
  | .checkReaper => some m.checkReaper
  | .startIrq => m.startIrq
  | .endIrq => some m.endIrq

def WaitQueue.Exists (m : Machine) : WaitQueue → Prop
  | .sem _ => True
  | .timer target => ∃ t ∈ m.timers, t.target = target

/-- What the callers see to: a process is started once, after its construction, there is one idle
process, and the queue given to `yield` exists. -/
def Op.Allowed (m : Machine) : Op → Prop
  | .start p => p < m.nextId ∧ p ∉ m.started
  | .boot => m.idleProcess = none
  | .yieldOn q => q.Exists m
  | _ => True

instance (m : Machine) : (q : WaitQueue) → Decidable (q.Exists m)
  | .sem _ => inferInstanceAs (Decidable True)
  | .timer target => inferInstanceAs (Decidable (∃ t ∈ m.timers, t.target = target))

instance (m : Machine) : (op : Op) → Decidable (op.Allowed m)
  | .start p => inferInstanceAs (Decidable (p < m.nextId ∧ p ∉ m.started))
  | .boot => inferInstanceAs (Decidable (m.idleProcess = none))
  | .yieldOn q => inferInstanceAs (Decidable (q.Exists m))
  | .construct | .yield | .down _ | .up _ | .sleepUntil _ | .tick | .exit | .checkReaper
  | .startIrq | .endIrq => inferInstanceAs (Decidable True)

/-- A call that does not panic. -/
def Step (m : Machine) (op : Op) (m' : Machine) : Prop := op.Allowed m ∧ op.exec m = some m'

/-- Nothing is constructed yet; the semaphores may have any counts. -/
def Machine.init (count : Nat → Int32) (hz : UInt32) (state : Pid → State) : Machine where
  nextId := 0
  state := state
  iDepth := fun _ => 0
  current := none
  idleProcess := none
  readyQueue := []
  reaperQueue := []
  timers := []
  sems s := { count := count s, waiting := [] }
  jiffies := 0
  hz := hz
  idleJiffies := 0
  started := []
  readied := []
  dispatched := []
  reaped := []

end K439.Sched
