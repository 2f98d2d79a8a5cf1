import K439.Exit.Basic
import K439.Sched.Basic

/-!
# Descriptor tables and reference counts

`kernel/table.cc` and `kernel/resource.h`, with the parts of `kernel/process.cc`, `init.cc`,
`child.cc` and `syscall.cc` that use them. A statement is one step; between two steps of a process
there may be any steps of others. The table of a process is touched by nobody else before its
destructor, so its mutex is left out.

A resource is named by its kind and a number, which it gets when its first reference is stored. A
process is named by its construction, and so is its table. A child has its number before `forkMe`
fills its table.
-/

namespace K439.Table

open Exit (ResourceType)
open Sched (Pid)

def ERR_NOT_FOUND : Int := -1001
def ERR_INVALID_ID : Int := -1002
def ERR_NO_ID : Int := -1003
def ERR_CLOSE_WD : Int := -1013

/-- The `n` of `new Table(100)`. -/
def n : Nat := 100

/-- The bytes of `Heap::init`. -/
def heapSize : Nat := 0x100000

inductive Resource
  | process (p : Pid)
  | semaphore (k : Nat)
  | file (k : Nat)
  | directory (k : Nat)
  /-- the table of `p` -/
  | table (p : Pid)
  deriving DecidableEq

def Resource.type : Resource → ResourceType
  | process _ => .PROCESS
  | semaphore _ => .SEMAPHORE
  | file _ => .FILE
  | directory _ => .DIRECTORY
  | table _ => .TABLE

/-- `FileSystem::rootfs->rootdir` -/
def rootdir : Resource := .directory 0

/-- Where a process stands: what it does next. -/
inductive Pc
  /-- not constructed -/
  | new
  /-- its own code -/
  | user
  /-- `addWorkingDir`, of the root directory by `Init::run`, or of the directory that `cd` has
  found -/
  | addWorkingDir (root : Bool)
  /-- `array[1] = Resource::ref(p)` -/
  | setWorkingDir (root : Bool)
  /-- `Resource::ref(FileSystem::rootfs->rootdir)` in `Init::run` -/
  | refRootDir
  /-- the loop of `forkMe` for the child `c`, and then its constructor -/
  | forkMe (c : Pid) (i : Nat)
  /-- `resources->open(child)` -/
  | openChild (c : Pid)
  | startChild (c : Pid) (id : Int)
  /-- `resources->open(p)` of a new file or semaphore -/
  | open (file : Bool)
  /-- `status.down()` and `status.up()` of `proc->doneEvent.wait()`, before `close(i)` -/
  | wait (c : Pid) (i : Nat)
  | waited (c : Pid) (i : Nat)
  /-- `Resource::unref(old)` in `close`, which `join` calls with an exit code to return -/
  | close (i : Nat) (code : Option Int)
  /-- `array[i] = nullptr`, and the value to return -/
  | clear (i : Nat) (rc : Int)
  /-- the loop of `closeAll`, by `exit` or by `execv` -/
  | closeAll (exit : Bool) (i : Nat)
  | clearAll (exit : Bool) (i : Nat)
  | closeWorkingDir
  | clearWorkingDir
  /-- `doneEvent.signal()` -/
  | signal
  /-- from `Process::disable()` on -/
  | finish
  | exited
  deriving DecidableEq

/-- A call on top of what a process does. -/
inductive Frame
  /-- the loop of `checkReaper` -/
  | checkReaper
  /-- `Resource::unref(kill)` -/
  | unref (kill : Pid)
  /-- the loop of `~Table` -/
  | destroy (p : Pid) (i : Nat)
  | clearDestroyed (p : Pid) (i : Nat)
  deriving DecidableEq

structure Proc where
  pc : Pc
  frames : List Frame
  array : Nat → Option Resource
  exitCode : Int
  /-- what the last system call has returned -/
  returned : Int

structure Machine where
  sched : Sched.Machine
  procs : Pid → Proc
  count : Resource → UInt32
  /-- how often `delete` was called -/
  deleted : Resource → Nat
  /-- the number of the next semaphore, file or directory -/
  nextObject : Nat
  /-- what the calls of `open` have returned -/
  opened : List Int

/-- The status of the event of `p`. The semaphores with the odd numbers are the others of the
system. -/
def doneEvent (p : Pid) : Nat := 2 * p

/-- The search of `open`. -/
def freeSlot (array : Nat → Option Resource) : Option Nat :=
  (List.range' 2 (n - 2)).find? fun i => array i = none

namespace Machine

variable (m : Machine)

def setProc (q : Pid) (x : Proc) : Machine := { m with procs := Function.update m.procs q x }

def goto (q : Pid) (pc : Pc) : Machine := m.setProc q { m.procs q with pc := pc }

/-- The end of a system call. -/
def ret (q : Pid) (rc : Int) : Machine := m.setProc q { m.procs q with pc := .user, returned := rc }

/-- `exit` up to the loop of `closeAll`. -/
def exit (q : Pid) (code : Int) : Machine :=
  m.setProc q { m.procs q with pc := .closeAll true 2, exitCode := code }

def call (q : Pid) (f : Frame) : Machine :=
  m.setProc q { m.procs q with frames := f :: (m.procs q).frames }

def setSlot (q : Pid) (i : Nat) (r : Option Resource) : Machine :=
  m.setProc q { m.procs q with array := Function.update (m.procs q).array i r }

/-- `Resource::ref` -/
def ref (r : Resource) : Machine := { m with count := Function.update m.count r (m.count r + 1) }

/-- `p->count.getThenAdd(-1)` -/
def getThenSub (r : Resource) : Machine :=
  { m with count := Function.update m.count r (m.count r - 1) }

/-- `delete`. What the destructors of the other resources do is done to none of them. -/
def delete (q : Pid) (r : Resource) : Machine :=
  let m := { m with deleted := Function.update m.deleted r (m.deleted r + 1) }
  match r with
  | .table p => m.call q (.destroy p 0)
  | _ => m

/-- `Resource::unref` of a resource other than a process. -/
def unrefOther (q : Pid) (r : Resource) : Machine :=
  if m.count r = 1 then (m.getThenSub r).delete q r else m.getThenSub r

/-- `Resource::unref` by `q`; `~Process` is `Resource::unref(resources)`. -/
def unref (q : Pid) : Option Resource → Machine
  | none => m
  | some (.process p) =>
    if m.count (.process p) = 1 then
      ((m.getThenSub (.process p)).delete q (.process p)).unrefOther q (.table p)
    else m.getThenSub (.process p)
  | some r => m.unrefOther q r

/-- `open`: `array[i] = Resource::ref(p)` if there is a free slot. -/
def openSlot (q : Pid) (r : Resource) : Int × Machine :=
  match freeSlot (m.procs q).array with
  | some i => (i, { (m.ref r).setSlot q i (some r) with opened := m.opened ++ [(i : Int)] })
  | none => (ERR_NO_ID, { m with opened := m.opened ++ [ERR_NO_ID] })

/-- `tp->array[i] = this->array[i]->forkMe()`, and null for null. -/
def copySlot (q c : Pid) (i : Nat) : Machine :=
  match (m.procs q).array i with
  | none => m.setSlot c i none
  | some (.process _) => m.setSlot c i none
  | some (.file k) =>
    { m with
      count := Function.update m.count (.file m.nextObject) (m.count (.file k))
      nextObject := m.nextObject + 1 }.setSlot c i (some (.file m.nextObject))
  | some r => (m.ref r).setSlot c i (some r)

/-- The constructor of `Process`, with the table made by `forkMe`. -/
def construct (c : Pid) : Machine :=
  let m := m.ref (.table c)
  { m with count := Function.update m.count (.process c) 1 }.goto c .user

/-- The tables in the heap. -/
def tables : Nat := ((List.range m.sched.nextId).filter fun p => m.deleted (.table p) = 0).length

/-- `new Child`: the table is in the heap, and the child has its number. The heap panics when it is
full. -/
def newTable (q : Pid) : Option Machine :=
  if 4 * n * (m.tables + 1) ≤ heapSize then
    let c := m.sched.nextId
    some (({ m with sched := { m.sched with nextId := c + 1 } }.setProc c
      { m.procs c with array := fun _ => none }).goto q (.forkMe c 0))
  else none

/-- One step of `q` in the call on top. -/
def stepFrame (q : Pid) (frames : List Frame) : Frame → Machine
  | .checkReaper =>
    match m.sched.reaperQueue with
    | [] => m.setProc q { m.procs q with frames := frames }
    | kill :: _ =>
      { m with sched := m.sched.checkReaper }.setProc q
        { m.procs q with frames := .unref kill :: .checkReaper :: frames }
  | .unref kill => (m.setProc q { m.procs q with frames := frames }).unref q (some (.process kill))
  | .destroy p i =>
    if i < n then
      (m.setProc q { m.procs q with frames := .clearDestroyed p i :: frames }).unref q
        ((m.procs p).array i)
    else m.setProc q { m.procs q with frames := frames }
  | .clearDestroyed p i =>
    (m.setProc q { m.procs q with frames := .destroy p (i + 1) :: frames }).setSlot p i none

/-- One step of `q` below the calls. -/
def stepPc (q : Pid) : Pc → Option Machine
  | .new | .user | .exited => none
  | .addWorkingDir root => some ((m.goto q (.setWorkingDir root)).unref q ((m.procs q).array 1))
  | .setWorkingDir true => some (((m.ref rootdir).setSlot q 1 (some rootdir)).goto q .refRootDir)
  | .setWorkingDir false =>
    let d := .directory m.nextObject
    some (({ m with nextObject := m.nextObject + 1 }.ref d).setSlot q 1 (some d) |>.ret q 0)
  | .refRootDir => some ((m.ref rootdir).goto q .user)
  | .forkMe c i =>
    some (if i < n then (m.copySlot q c i).goto q (.forkMe c (i + 1))
      else (m.construct c).goto q (.openChild c))
  | .openChild c =>
    let (id, m) := m.openSlot q (.process c)
    some (m.goto q (.startChild c id))
  | .startChild c id => some ({ m with sched := m.sched.start c }.ret q id)
  | .open file =>
    let r := if file then .file m.nextObject else .semaphore m.nextObject
    let (id, m) := { m with nextObject := m.nextObject + 1 }.openSlot q r
    some (m.ret q id)
  | .wait c i => do
    let sched ← m.sched.down (doneEvent c)
    some ({ m with sched := sched }.goto q (.waited c i))
  | .waited c i =>
    some ({ m with sched := m.sched.up (doneEvent c) }.goto q
      (.close i (some (m.procs c).exitCode)))
  | .close i code =>
    let old := (m.procs q).array i
    some ((m.goto q (.clear i (code.getD (if old = none then ERR_INVALID_ID else 0)))).unref q old)
  | .clear i rc => some ((m.setSlot q i none).ret q rc)
  | .closeAll exit i =>
    some (if i < n then (m.goto q (.clearAll exit i)).unref q ((m.procs q).array i)
      else m.goto q (if exit then .closeWorkingDir else .user))
  | .clearAll exit i => some ((m.setSlot q i none).goto q (.closeAll exit (i + 1)))
  | .closeWorkingDir =>
    match (m.procs q).array 1 with
    | none => none
    | some r =>
      if r.type ≠ .DIRECTORY then some (m.goto q .signal)
      else some ((m.goto q .clearWorkingDir).unref q (some r))
  | .clearWorkingDir => some ((m.setSlot q 1 none).goto q .signal)
  | .signal => some ({ m with sched := m.sched.up (doneEvent q) }.goto q .finish)
  | .finish => do
    let sched ← m.sched.exit
    some ({ m with sched := sched }.goto q .exited)

end Machine

/-- What a process can call, with what is found on the way: a file, a program, a directory. -/
inductive Call
  | exit (code : Int)
  | fork
  | semaphore
  | join (i : Int)
  | open (found : Bool)
  | close (i : Int)
  | execv (found : Bool)
  /-- without a path nothing is looked up -/
  | cd (path : Option Bool)
  deriving DecidableEq

/-- `Table::get` and what `join` does with it. A null slot is read, and the process is killed: what
killed processes do is not followed. -/
def Machine.join (m : Machine) (q : Pid) (i : Int) : Option Machine :=
  if i < 0 then some (m.ret q ERR_INVALID_ID)
  else if i ≥ n then some (m.ret q ERR_INVALID_ID)
  else match (m.procs q).array i.toNat with
    | none => none
    | some (.process c) => some (m.goto q (.wait c i.toNat))
    | some _ => some (m.ret q ERR_INVALID_ID)

/-- `Table::close` up to its first step. -/
def Machine.close (m : Machine) (q : Pid) (i : Int) : Machine :=
  if i < 0 then m.ret q ERR_INVALID_ID
  else if i ≥ n then m.ret q ERR_INVALID_ID
  else if i = 1 then m.ret q ERR_CLOSE_WD
  else m.goto q (.close i.toNat none)

/-- The system call of `q`, up to its first step. -/
def Call.exec (m : Machine) (q : Pid) : Call → Option Machine
  | .exit code => some (m.exit q code)
  | .fork => m.newTable q
  | .semaphore => some (m.goto q (.open false))
  | .join i => m.join q i
  | .open found => some (if found then m.goto q (.open true) else m.ret q ERR_NOT_FOUND)
  | .close i => some (m.close q i)
  | .execv found => some (if found then m.goto q (.closeAll false 2) else m.ret q ERR_NOT_FOUND)
  | .cd none => some (m.ret q 0)
  | .cd (some found) =>
    some (if found then m.goto q (.addWorkingDir false) else m.ret q ERR_NOT_FOUND)

inductive Event
  /-- the current process is interrupted, yields, blocks or sleeps -/
  | sched (op : Sched.Op)
  /-- the current process calls `checkReaper` -/
  | checkReaper
  | call (c : Call)
  | step

/-- The operations that leave tables and processes alone, on other semaphores than the events. -/
def scheduling : Sched.Op → Bool
  | .yield | .sleepUntil _ | .tick | .startIrq | .endIrq => true
  | .down s => s % 2 = 1
  | .up s => s % 2 = 1
  | _ => false

def Event.next (m : Machine) (e : Event) : Option Machine :=
  match m.sched.current, e with
  | none, _ => none
  | some _, .sched op =>
    if scheduling op then do
      let sched ← op.exec m.sched
      some { m with sched := sched }
    else none
  | some q, .checkReaper => some (m.call q .checkReaper)
  | some q, .call c =>
    if (m.procs q).pc = .user ∧ (m.procs q).frames = [] ∧ m.sched.idleProcess ≠ some q then
      c.exec m q else none
  | some q, .step =>
    match (m.procs q).frames with
    | f :: frames => some (m.stepFrame q frames f)
    | [] => m.stepPc q (m.procs q).pc

def Step (m : Machine) (e : Event) (m' : Machine) : Prop := e.next m = some m'

/-- The scheduler when `kernelMain` has yielded to Init. -/
def bootSched (count : Nat → Int32) (hz : UInt32) (state : Pid → Sched.State) : Sched.Machine :=
  ({ Sched.Machine.init (fun s => if s % 2 = 0 then 0 else count s) hz state with
    nextId := 1 }.newIdleProcess.start 0).switch none

/-- Init runs, and the idle process is ready. -/
def boot (count : Nat → Int32) (hz : UInt32) (state : Pid → Sched.State) : Machine where
  sched := bootSched count hz state
  procs p :=
    { pc := if p = 0 then .addWorkingDir true else if p = 1 then .user else .new
      frames := []
      array := fun _ => none
      exitCode := 0
      returned := 0 }
  count r := if r = .process 0 ∨ r = .table 0 ∨ r = .process 1 ∨ r = .table 1 then 1 else 0
  deleted _ := 0
  nextObject := 1
  opened := []

end K439.Table
