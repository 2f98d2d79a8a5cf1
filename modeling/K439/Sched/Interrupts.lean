import K439.Lib.Run
import K439.Sched.Basic

/-!
# Interrupts

`Process::disable` and `enable`, `startIrq` and `endIrq`, `pic_irq` and `contextSwitch`. A process
counts how often it has turned interrupts off; the flag is one of the CPU. `Cpu` puts both around
the scheduler, and each process has a stack: what the calls it has not finished are still to do,
with the call it is in at the head. `Instr.exec` does the head of the stack. A step of the scheduler
is taken at once, and the `disable` and `enable` of the `makeReady` calls in it follow or precede
it; interrupts are off then. Processes are not killed, and the stack check of `dispatch` is left
out.
-/

namespace K439.Sched

/-- How a process leaves the CPU to another one. -/
inductive Leaving
  | yield
  | down (s : Nat)
  | sleepUntil (second : UInt32)
  | exit
  deriving DecidableEq

def Leaving.op : Leaving → Op
  | .yield => .yield
  | .down s => .down s
  | .sleepUntil second => .sleepUntil second
  | .exit => .exit

/-- The calls of the kernel's code. -/
inductive Call
  /-- the constructor of `Process` -/
  | construct
  /-- `idleProcess = new IdleProcess(); idleProcess->start();` -/
  | boot
  | start (p : Pid)
  /-- `disable(); ...; enable();` -/
  | critical
  | yield
  | down (s : Nat)
  | up (s : Nat)
  | sleepUntil (second : UInt32)
  | checkReaper
  | exit
  deriving DecidableEq

inductive Instr
  /-- any code: calls, one after the other, and then a return -/
  | body
  | call (f : Call)
  | disable
  | enable
  | construct
  | boot
  | start (p : Pid)
  /-- `if (me) me->makeReady();` -/
  | leave
  | switch (l : Leaving)
  | down (s : Nat)
  | up (s : Nat)
  | sleepUntil (second : UInt32)
  | reap
  | tick
  | startIrq
  | endIrq
  /-- the return from an interrupt, which was taken with interrupts on -/
  | iret
  deriving DecidableEq

/-- The `disable` and `enable` of `makeReady`. -/
def makeReadyCode : List Instr := [.disable, .enable]

/-- `yield(q)`, where the process blocks. `checkKilled` is what `dispatch` does in the context of
the next process. -/
def blockCode (l : Leaving) : List Instr := [.disable, .switch l, .call .checkReaper, .enable]

def Call.code : Call → List Instr
  | .construct => [.construct]
  | .boot => [.disable, .boot, .enable]
  | .start p => [.disable, .start p, .enable]
  | .critical => [.disable, .body, .enable]
  | .yield => [.disable, .leave, .switch .yield, .call .checkReaper, .enable]
  | .down s => [.disable, .down s, .enable]
  | .up s => [.disable, .up s, .enable]
  | .sleepUntil second => [.disable, .sleepUntil second, .enable]
  | .checkReaper => [.disable, .reap]
  -- `closeAll`, `closeWorkingDir`, `onExit` and `doneEvent.signal()` come first
  | .exit => [.body, .disable, .switch .exit, .enable]

/-- `Process::entry` -/
def entry : List Instr := [.call .checkReaper, .body, .call .exit]

/-- `pic_irq` and the `iret` of `irq_common`. -/
def picIrq (irq : Nat) : List Instr :=
  .startIrq :: (if irq = 0 then [.disable, .tick, .enable] else []) ++
    [.call .yield, .endIrq, .iret]

/-- What `kernelMain` does with processes. -/
def kernelMain : List Instr := [.call .construct, .call .boot, .call (.start 0), .call .yield]

structure Cpu where
  sched : Machine
  /-- IF -/
  interrupts : Bool
  disableCount : Pid → UInt32
  stack : List Instr
  /-- the stacks of the processes that do not run -/
  kesp : Pid → List Instr

inductive Panic
  /-- `enable` -/
  | disable
  | startIrqWithNoProcess
  | startIrq
  | endIrq
  /-- `blocking while iDepth` and `blocking without process` -/
  | blocking

namespace Cpu

variable (c : Cpu)

def push (l : List Instr) : Cpu := { c with stack := l ++ c.stack }

def disable : Cpu :=
  match c.sched.current with
  | none => { c with interrupts := false }
  | some me => { c with
      interrupts := false
      disableCount := Function.update c.disableCount me (c.disableCount me + 1) }

def enable : Except Panic Cpu :=
  match c.sched.current with
  | none => .ok c
  | some me =>
    let n := c.disableCount me
    if n = 0 then .error .disable
    else if n = 1 then
      .ok { c with disableCount := Function.update c.disableCount me 0, interrupts := true }
    else .ok { c with disableCount := Function.update c.disableCount me (n - 1) }

/-- The process that `yield` takes as the one to save. After `current = nullptr` in `exit` there is
none. -/
def prev : Leaving → Option Pid
  | .exit => none
  | _ => c.sched.current

/-- The end of `dispatch`, with `contextSwitch`. The scheduler is `m` then. -/
def dispatch (m : Machine) (prev : Option Pid) : Cpu :=
  if m.current = prev then { c with sched := m }
  else
    match m.current with
    | none => { c with sched := m }
    | some next => { c with
        sched := m
        kesp := match prev with
          | none => c.kesp
          | some p => Function.update c.kesp p c.stack
        stack := c.kesp next
        interrupts := c.disableCount next = 0 }

def startIrq : Except Panic Cpu :=
  match c.sched.current, c.sched.startIrq with
  | some me, some m =>
    if c.disableCount me ≠ 0 then .error .startIrq
    else .ok { c with sched := m, disableCount := Function.update c.disableCount me 1 }
  | _, _ => .error .startIrqWithNoProcess

def endIrq : Except Panic Cpu :=
  match c.sched.current with
  | none => .ok c
  | some me =>
    if c.disableCount me ≠ 1 then .error .endIrq
    else .ok { c with sched := c.sched.endIrq, disableCount := Function.update c.disableCount me 0 }

/-- A step of the scheduler, and then `l`. -/
def schedule (op : Op) (l : List Instr) : Except Panic Cpu :=
  match op.exec c.sched with
  | some m => .ok { c with sched := m, stack := l ++ c.stack }
  | none => .error .blocking

/-- The processes that `tick` makes ready after `jiffies++`. -/
def woken (m : Machine) : List Pid :=
  match m.timers with
  | first :: _ => if m.jiffies + 1 = first.target then first.waiting else []
  | [] => []

end Cpu

/-- What the head of the stack does; the stack of `c` is what is below it. -/
def Instr.exec (c : Cpu) : Instr → Except Panic Cpu
  | .body => .ok c
  | .call f => .ok (c.push f.code)
  | .disable => .ok c.disable
  | .enable => c.enable
  | .construct => c.schedule .construct []
  | .boot => c.schedule .boot []
  | .start p => c.schedule (.start p) []
  | .leave => .ok (if c.sched.current = none then c else c.push makeReadyCode)
  | .switch l =>
    match l.op.exec c.sched with
    | some m => .ok (c.dispatch m (c.prev l))
    | none => .error .blocking
  | .down s =>
    if (c.sched.sems s).count = 0 then
      if c.sched.current = none then .error .blocking else .ok (c.push (blockCode (.down s)))
    else c.schedule (.down s) []
  | .up s => c.schedule (.up s) (if (c.sched.sems s).waiting = [] then [] else makeReadyCode)
  | .sleepUntil second =>
    if c.sched.jiffies < second * c.sched.hz then .ok (c.push (blockCode (.sleepUntil second)))
    else .ok c
  | .reap =>
    match c.sched.reaperQueue with
    | [] => .ok (c.push [.enable])
    -- `body` is `unref(kill)`
    | _ :: _ => c.schedule .checkReaper [.enable, .body, .call .checkReaper]
  | .tick => c.schedule .tick ((Cpu.woken c.sched).flatMap fun _ => makeReadyCode)
  | .startIrq => c.startIrq
  | .endIrq => c.endIrq
  | .iret => .ok { c with interrupts := true }

/-- What the callers see to: there is one idle process, a process is started once, and the idle
process does not exit. -/
def Instr.Allowed (m : Machine) : Instr → Prop
  | .boot => Op.boot.Allowed m
  | .start p => (Op.start p).Allowed m
  | .switch .exit => m.current ≠ m.idleProcess
  | _ => True

instance (m : Machine) : (i : Instr) → Decidable (i.Allowed m)
  | .boot => inferInstanceAs (Decidable (Op.boot.Allowed m))
  | .start p => inferInstanceAs (Decidable ((Op.start p).Allowed m))
  | .switch .exit => inferInstanceAs (Decidable (m.current ≠ m.idleProcess))
  | .switch .yield | .switch (.down _) | .switch (.sleepUntil _) | .body | .call
      _ | .disable | .enable | .construct
  | .leave | .down _ | .up _ | .sleepUntil _ | .reap | .tick | .startIrq | .endIrq | .iret =>
    inferInstanceAs (Decidable True)

/-- What happens next: the head of the stack, a call by the code there, or an interrupt. -/
inductive Move
  | next
  | call (f : Call)
  | irq (irq : Nat)

def Move.Allowed (c : Cpu) : Move → Prop
  | .next => ∃ i ∈ c.stack.head?, i.Allowed c.sched
  | .call _ => c.stack.head? = some .body
  | .irq _ => c.interrupts = true

instance (c : Cpu) : (t : Move) → Decidable (t.Allowed c)
  | .next => inferInstanceAs (Decidable (∃ i ∈ c.stack.head?, i.Allowed c.sched))
  | .call _ => inferInstanceAs (Decidable (c.stack.head? = some .body))
  | .irq _ => inferInstanceAs (Decidable (c.interrupts = true))

def Move.exec (c : Cpu) : Move → Except Panic Cpu
  | .next =>
    match c.stack with
    | [] => .ok c
    | i :: rest => i.exec { c with stack := rest }
  | .call f => .ok (c.push [.call f])
  | .irq n => .ok { c with interrupts := false, stack := picIrq n ++ c.stack }

def STACK_LONGS : Nat := 1024 * 2

/-- How many calls are to turn interrupts on again before they return. -/
def depth (l : List Instr) : Nat := l.countP fun i => i matches .enable | .endIrq | .reap

namespace Cpu

/-- The return addresses of these calls are on the stack. -/
def Fits (c : Cpu) : Prop := depth c.stack ≤ STACK_LONGS

instance (c : Cpu) : Decidable c.Fits := inferInstanceAs (Decidable (_ ≤ _))

/-- A turn without a panic. -/
def Step (c : Cpu) (t : Move) (c' : Cpu) : Prop := t.Allowed c ∧ t.exec c = .ok c' ∧ c'.Fits

/-- `Step` as a function. -/
def next (c : Cpu) (t : Move) : Option Cpu :=
  match t.exec c with
  | .ok c' => if t.Allowed c ∧ c'.Fits then some c' else none
  | .error _ => none

/-- `kernelMain`, before there are processes. -/
def boot (count : Nat → Int32) (hz : UInt32) (state : Pid → State) : Cpu where
  sched := .init count hz state
  interrupts := false
  disableCount := fun _ => 0
  stack := kernelMain
  kesp := fun _ => entry

end Cpu

end K439.Sched
