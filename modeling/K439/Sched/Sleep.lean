import K439.Sched.Timer

/-!
# Sleeping

A process that called `sleepUntil` does not run before `jiffies` has reached `second * hz` modulo
`2 ^ 32`. So it does not run too early as long as the product does not wrap, and if it wraps every
return is too early, since `jiffies` itself never gets that far.
-/

namespace K439.Sched

open Machine

/-- `Pit::seconds` -/
def Machine.seconds (m : Machine) : UInt32 := m.jiffies / m.hz

/-- `Process::sleepFor`: the call of `sleepUntil`, whose argument is computed with interrupts on. -/
def Machine.sleepFor (m : Machine) (seconds : UInt32) : Op := .sleepUntil (m.seconds + seconds)

def Reached (hz : UInt32) (a : Machine × Log) : Prop :=
  ∃ count state ops, Run Logged (Machine.init count hz state, .nil) ops a

/-- The process `p` makes the call in a reachable state `a`, and in `b` it runs again. -/
structure Returns (hz : UInt32) (p : Pid) (call : Op) (a b : Machine × Log) : Prop where
  reached : Reached hz a
  caller : a.1.current = some p
  called : ∃ a' ops, Logged a call a' ∧ Run Logged a' ops b
  runs : b.1.current = some p
  notIdle : b.1.idleProcess ≠ some p
  ticks : b.2.ticks.length < 2 ^ 32

variable {hz second seconds j : UInt32} {p : Pid} {a b : Machine × Log} {ops : List Op} {op : Op}

theorem Logged.slept_subset (h : Logged a op b) : a.2.slept ⊆ b.2.slept := by
  rw [h.2]
  exact List.subset_append_left ..

theorem Logged.grows (h : Run Logged a ops b) :
    b.1.hz = a.1.hz ∧ a.2.slept ⊆ b.2.slept ∧ a.2.ticks.length ≤ b.2.ticks.length := by
  refine h.inv (I := fun b : Machine × Log => b.1.hz = a.1.hz ∧ a.2.slept ⊆ b.2.slept ∧
    a.2.ticks.length ≤ b.2.ticks.length)
    ?_ ⟨rfl, List.Subset.refl _, Nat.le_refl _⟩
  rintro b op c ⟨hh, hs, ht⟩ h
  exact ⟨h.hz.trans hh, List.Subset.trans hs h.slept_subset, Nat.le_trans ht h.ticks_le⟩

theorem Logged.inv {count : Nat → Int32} {state : Pid → State}
    (h : Run Logged (Machine.init count hz state, .nil) ops a) : Inv a.1 :=
  h.inv (I := fun a : Machine × Log => Inv a.1) (fun _ _ _ I h => I.step h.1)
    (Inv.init count hz state)

/-- Who runs again does so at the target or later. -/
theorem Returns.target_le (R : Returns hz p (.sleepUntil second) a b) :
    second * hz ≤ b.1.jiffies := by
  obtain ⟨⟨count, state, ops, hinit⟩, hcaller, ⟨a', ops', hcall, hrun⟩, hruns, hidle,
      hticks⟩ := R
  have hlater := Run.cons hcall hrun
  obtain ⟨-, -, hle⟩ := Logged.grows hlater
  have Oa := (timers_on_time hinit (Nat.lt_of_le_of_lt hle hticks)).1
  have Ob := (timers_on_time (hinit.trans hlater) hticks).1
  have hhz : a.1.hz = hz := (Logged.grows hinit).1
  refine UInt32.not_lt.mp fun hlt => ?_
  have hlt₀ : a.1.jiffies < second * a.1.hz := by
    rw [hhz, UInt32.lt_iff_toNat_lt, Oa.jiffies_eq]
    rw [UInt32.lt_iff_toNat_lt, Ob.jiffies_eq] at hlt
    exact Nat.lt_of_le_of_lt hle hlt
  have hslept : (p, second * hz) ∈ a'.2.slept := by
    rw [hcall.2]
    refine List.mem_append_right _ ?_
    rw [Op.sleeper, if_pos hlt₀, hcaller, hhz]
    exact List.mem_singleton_self _
  -- so it still waits in `b`, and does not run there
  have hwaiting : p ∈ b.1.waiting (.timer (second * hz)) := by
    rw [Ob.waiting _ hlt]
    exact List.mem_map.mpr ⟨_, List.mem_filter.mpr ⟨(Logged.grows hrun).2.1 hslept, by simp⟩,
      rfl⟩
  have hcur : 0 < b.1.cnt .current p := by simp [cnt, hruns]
  have hwait : 0 < b.1.cnt (.wait (.timer (second * hz))) p := List.count_pos_iff.mpr hwaiting
  cases (Logged.inv (hinit.trans hlater)).once.at_unique hidle hcur hwait

/-! ## Every call can return -/

/-- The process 0 runs, 1 is the idle process, and nobody else is there. -/
structure Alone (hz : UInt32) (m : Machine) : Prop where
  current : m.current = some 0
  idle : m.idleProcess = some 1
  ready : m.readyQueue = []
  timers : m.timers = []
  depth : m.iDepth 0 = 0
  hz : m.hz = hz

/-- The process 0 sleeps until the target, and the idle process runs. -/
structure Asleep (target : UInt32) (m : Machine) : Prop where
  current : m.current = some 1
  idle : m.idleProcess = some 1
  ready : m.readyQueue = []
  timers : m.timers = [⟨target, [0]⟩]

variable {m m' : Machine} {target : UInt32} {n : Nat}

theorem Alone.tick (A : Alone hz m) : Alone hz m.handler ∧ m.handler.jiffies = m.jiffies + 1 := by
  have hne : m.current ≠ m.idleProcess := by
    rw [A.current, A.idle]
    decide
  have heq : m.handler = { m with jiffies := m.jiffies + 1 } := by
    simp [handler, Machine.tick, fire, hne, A.timers]
  rw [heq]
  exact ⟨⟨A.current, A.idle, A.ready, A.timers, A.depth, A.hz⟩, rfl⟩

theorem Asleep.tick (A : Asleep target m) (hne : m.jiffies + 1 ≠ target) :
    Asleep target m.handler ∧ m.handler.jiffies = m.jiffies + 1 := by
  have hidle : m.current = m.idleProcess := A.current.trans A.idle.symm
  have heq : m.handler = { m with jiffies := m.jiffies + 1, idleJiffies := m.idleJiffies + 1 } := by
    simp [handler, Machine.tick, fire, hidle, A.timers, hne]
  rw [heq]
  exact ⟨⟨A.current, A.idle, A.ready, A.timers⟩, rfl⟩

/-- The sleeper wakes up, and the idle process gives way to it. -/
theorem Asleep.wake (A : Asleep target m) (heq : m.jiffies + 1 = target) :
    ∃ m', m.handler.yield none = some m' ∧
    m'.current = some 0 ∧ m'.idleProcess = some 1 ∧ m'.jiffies = target := by
  have hidle : m.current = m.idleProcess := A.current.trans A.idle.symm
  have hfire : m.handler = { m with
      jiffies := target
      idleJiffies := m.idleJiffies + 1
      timers := []
      state := Function.update m.state 0 .READY
      readied := m.readied ++ [0]
      readyQueue := [0] } := by
    simp [handler, Machine.tick, fire, hidle, A.timers, heq, makeReady_eq, A.idle, A.ready, others]
  rw [hfire]
  refine ⟨_, by simp [Machine.yield, leave, A.current]; rfl, ?_⟩
  simp [makeReady_eq, switch, dispatch, A.idle, others]

theorem Alone.block (A : Alone hz m) (hlt : m.jiffies < second * hz) :
    ∃ m', m.sleepUntil second = some m' ∧
    Asleep (second * hz) m' ∧ m'.jiffies = m.jiffies := by
  rw [← A.hz] at hlt ⊢
  rw [sleepUntil, if_pos hlt]
  refine ⟨_, by simp [Machine.yield, leave, A.current, A.depth]; rfl, ?_⟩
  have hswitch : ∀ m : Machine, m.readyQueue = [] → m.idleProcess = some 1 →
      m.switch (some 0) = m.dispatch 1 (some 0) := by
    intro m hr hi
    rw [switch, hr, hi]
  rw [hswitch]
  · exact ⟨⟨by simp [dispatch], A.idle, A.ready,
      by simp [dispatch, addTail, addTail.go, findTimer, A.timers]⟩, rfl⟩
  · exact A.ready
  · exact A.idle

/-- A step determines the log. -/
theorem Step.logged (l : Log) (h : Step m op m') : Logged (m, l) op (m', l.record m op m') :=
  ⟨h, rfl⟩

theorem toNat_add_one (h : j.toNat + n < 2 ^ 32) (hn : 0 < n) : (j + 1).toNat = j.toNat + 1 := by
  rw [UInt32.toNat_add]
  exact Nat.mod_eq_of_lt (by simp; omega)

def Op.isTick : Op → Bool
  | .tick => true
  | _ => false

theorem Logged.ticks_length (h : Run Logged a ops b) :
    b.2.ticks.length = a.2.ticks.length + ops.countP Op.isTick := by
  induction h with
  | nil => rfl
  | snoc _ h ih =>
    rw [List.countP_append, ← Nat.add_assoc, ← ih, h.2]
    cases ‹Op› with
    | tick => exact List.length_append
    | _ => rfl

/-- The ticks until the process 0 makes the call. -/
theorem Alone.ticks (A : Alone hz a.1) (hn : a.1.jiffies.toNat + n < 2 ^ 32) :
    ∃ b, Run Logged a (List.replicate n .tick) b ∧
    Alone hz b.1 ∧ b.1.jiffies.toNat = a.1.jiffies.toNat + n := by
  induction n generalizing a with
  | zero => exact ⟨a, .nil, A, rfl⟩
  | succ n ih =>
    obtain ⟨A', hj⟩ := A.tick
    have hnext := toNat_add_one hn (Nat.succ_pos n)
    obtain ⟨b, hrun, B, hb⟩ :=
      ih (a := (a.1.handler, a.2.record a.1 .tick a.1.handler)) A' (by rw [hj, hnext]; omega)
    refine ⟨b, .cons (Step.logged a.2 ⟨trivial, rfl⟩) hrun, B, ?_⟩
    rw [hb, hj, hnext]
    omega

/-- The ticks until the one that wakes the process 0 up. -/
theorem Asleep.ticks (A : Asleep target a.1) (hn : a.1.jiffies.toNat + n < target.toNat) :
    ∃ b, Run Logged a (List.replicate n .tick) b ∧ Asleep target b.1 ∧
    b.1.jiffies.toNat = a.1.jiffies.toNat + n := by
  induction n generalizing a with
  | zero => exact ⟨a, .nil, A, rfl⟩
  | succ n ih =>
    have hmax := target.toNat_lt
    have hnext := toNat_add_one (Nat.lt_trans hn hmax) (Nat.succ_pos n)
    have hne : a.1.jiffies + 1 ≠ target := by
      rintro rfl
      omega
    obtain ⟨A', hj⟩ := A.tick hne
    obtain ⟨b, hrun, B, hb⟩ :=
      ih (a := (a.1.handler, a.2.record a.1 .tick a.1.handler)) A' (by rw [hj, hnext]; omega)
    refine ⟨b, .cons (Step.logged a.2 ⟨trivial, rfl⟩) hrun, B, ?_⟩
    rw [hb, hj, hnext]
    omega

/-- The process 0 runs at the time 0. -/
theorem alone_reached (hz : UInt32) :
    ∃ a, Run Logged (Machine.init (fun _ => 0) hz fun _ => .READY, .nil)
    [.construct, .boot, .start 0, .yield] a ∧ Alone hz a.1 ∧ a.1.jiffies = 0 := by
  refine ⟨_, .cons (Step.logged _ ⟨trivial, rfl⟩) <| .cons (Step.logged _ ⟨rfl, rfl⟩) <|
    .cons (Step.logged _ ⟨⟨Nat.succ_pos _, ?_⟩, rfl⟩) <| .cons
      (Step.logged _ ⟨trivial, rfl⟩) .nil, ⟨rfl, rfl, rfl, rfl, rfl, rfl⟩, rfl⟩
  simp [newIdleProcess, start, makeReady_eq, Machine.init]

/-- Whatever the time and the argument, there is a run in which the call returns. -/
theorem exists_returns (hz second j : UInt32) :
    ∃ a b, a.1.jiffies = j ∧ Returns hz 0 (.sleepUntil second) a b := by
  obtain ⟨a₀, h₀, A₀, hj₀⟩ := alone_reached hz
  obtain ⟨a, h₁, A, hj⟩ := A₀.ticks (n := j.toNat) (by rw [hj₀]; simpa using j.toNat_lt)
  have hreached := h₀.trans h₁
  rw [hj₀] at hj
  have hj : a.1.jiffies = j := UInt32.toNat_inj.mp (by simpa using hj)
  have hlen : ([Op.construct, .boot, .start 0, .yield] ++ List.replicate j.toNat Op.tick).countP
      Op.isTick = j.toNat := by
    rw [List.countP_append, List.countP_replicate]
    simp [Op.isTick]
  refine ⟨a, ?_⟩
  by_cases hlt : a.1.jiffies < second * hz
  · have hgt := UInt32.lt_iff_toNat_lt.mp hlt
    obtain ⟨m', hsleep, B, hj'⟩ := A.block hlt
    have hstep : Step a.1 (.sleepUntil second) m' := ⟨trivial, hsleep⟩
    have hcall := hstep.logged a.2
    obtain ⟨b, h₂, B, hb⟩ := Asleep.ticks (a := (m', a.2.record a.1 (.sleepUntil second) m'))
      (n := (second * hz).toNat - 1 - a.1.jiffies.toNat) B (by simp only [hj']; omega)
    have hone : b.1.jiffies + 1 = second * hz := by
      refine UInt32.toNat_inj.mp ?_
      have hmax := (second * hz).toNat_lt
      simp only [hj'] at hb
      rw [toNat_add_one (n := 1) (by omega) Nat.one_pos, hb]
      omega
    obtain ⟨m, hyield, hcur, hidle, hjiffies⟩ := B.wake hone
    have hwake : Step b.1 .tick b.1.handler := ⟨trivial, rfl⟩
    have hgive : Step b.1.handler .yield m := ⟨trivial, hyield⟩
    have hrun := (h₂.snoc (hwake.logged b.2)).snoc (hgive.logged _)
    refine ⟨_, hj, ⟨_, _, _, hreached⟩, A.current, ⟨_, _, hcall, hrun⟩, hcur, ?_, ?_⟩
    · rw [hidle]
      decide
    · have hcount :
          ∀ n, (Op.sleepUntil second :: (List.replicate n Op.tick ++ [.tick] ++ [.yield])).countP
          Op.isTick = n + 1 := by
        intro n
        simp [Op.isTick, List.countP_append, List.countP_replicate, List.countP_cons]
      have hmax := (second * hz).toNat_lt
      rw [Logged.ticks_length (hreached.trans (.cons hcall hrun)), List.countP_append, hlen,
        hcount, ← hj]
      exact (by omega :
        0 + (a.1.jiffies.toNat + ((second * hz).toNat - 1 - a.1.jiffies.toNat + 1)) < 2 ^ 32)
  · have hstep : Step a.1 (.sleepUntil second) a.1 := ⟨trivial, if_neg (A.hz ▸ hlt)⟩
    have hcall := hstep.logged a.2
    refine ⟨_, hj, ⟨_, _, _, hreached⟩, A.current, ⟨_, [], hcall, .nil⟩,
      A.current, ?_, ?_⟩
    · rw [A.idle]
      decide
    · rw [Logged.ticks_length (hreached.trans (.single hcall)), List.countP_append, hlen]
      simpa [Op.isTick, Log.nil] using j.toNat_lt

/-! ## When a call returns in time -/

/-- The 32-bit product of two numbers whose product is no greater. -/
theorem toNat_mul_of_lt {x y : UInt32} (h : x.toNat * y.toNat < 2 ^ 32) :
    (x * y).toNat = x.toNat * y.toNat := by
  rw [UInt32.toNat_mul]
  exact Nat.mod_eq_of_lt h

theorem Returns.long_enough (R : Returns hz p (.sleepUntil second) a b)
    (h : second.toNat * hz.toNat < 2 ^ 32) : second.toNat * hz.toNat ≤ b.1.jiffies.toNat := by
  rw [← toNat_mul_of_lt h]
  exact UInt32.le_iff_toNat_le.mp R.target_le

theorem Reached.sleepFor_eq (h : Reached hz a) :
    a.1.sleepFor seconds = .sleepUntil (a.1.jiffies / hz + seconds) := by
  obtain ⟨count, state, ops, h⟩ := h
  have hhz : a.1.hz = hz := (Logged.grows h).1
  rw [sleepFor, Machine.seconds, hhz]

/-- `sleepUntil` never returns early exactly for the arguments whose product with `hz` is a 32-bit
number, and `sleepFor` exactly where the whole time is one. In the state `r` the process calls
`sleepFor` and reads `jiffies`. -/
theorem sleeps_long_enough_iff (hz : UInt32) (hpos : 0 < hz) :
    (∀ second, (∀ p a b, Returns hz p (.sleepUntil second) a b →
      second.toNat * hz.toNat ≤ b.1.jiffies.toNat) ↔
      second.toNat * hz.toNat < 2 ^ 32) ∧
    ∀ j seconds, (∀ p r ops a b, Reached hz r → r.1.current = some p → r.1.jiffies = j →
      Run Logged r ops a →
      Returns hz p (r.1.sleepFor seconds) a b →
      (j.toNat / hz.toNat + seconds.toNat) * hz.toNat ≤ b.1.jiffies.toNat) ↔
        (j.toNat / hz.toNat + seconds.toNat) * hz.toNat < 2 ^ 32 := by
  refine ⟨fun second => ⟨fun h => ?_, fun h p a b R => R.long_enough h⟩,
    fun j seconds => ⟨fun h => ?_, fun h p r ops a b hr _ hj _ R => ?_⟩⟩
  · obtain ⟨a, b, -, R⟩ := exists_returns hz second 0
    exact Nat.lt_of_le_of_lt (h 0 a b R) b.1.jiffies.toNat_lt
  · obtain ⟨a, b, rfl, R⟩ := exists_returns hz (j / hz + seconds) j
    have hR := R
    rw [← R.reached.sleepFor_eq] at hR
    exact Nat.lt_of_le_of_lt (h 0 a [] a b R.reached R.caller rfl .nil hR) b.1.jiffies.toNat_lt
  · subst hj
    have hle : r.1.jiffies.toNat / hz.toNat + seconds.toNat < 2 ^ 32 :=
      Nat.lt_of_le_of_lt (Nat.le_mul_of_pos_right _ (UInt32.lt_iff_toNat_lt.mp hpos)) h
    have hsum : (r.1.jiffies / hz + seconds).toNat = r.1.jiffies.toNat / hz.toNat +
        seconds.toNat := by
      rw [UInt32.toNat_add, UInt32.toNat_div]
      exact Nat.mod_eq_of_lt hle
    rw [hr.sleepFor_eq] at R
    rw [← hsum] at h ⊢
    exact R.long_enough h

/-- A minute at 1000 ticks a second. -/
theorem sleeps_long_enough_iff_minute :
    ∃ a b, Returns 1000 0 (.sleepUntil 60) a b ∧ 60 * 1000 ≤ b.1.jiffies.toNat := by
  obtain ⟨a, b, -, R⟩ := exists_returns 1000 60 0
  exact ⟨a, b, R, ((sleeps_long_enough_iff 1000 (by decide)).1 60).mpr (by decide) 0 a b R⟩

/-- After 49 days the product wraps. -/
theorem sleepUntil_early :
    ∃ a b, Returns 1000 0 (.sleepUntil 4294968) a b ∧ b.1.jiffies.toNat < 4294968 * 1000 := by
  obtain ⟨a, b, -, R⟩ := exists_returns 1000 4294968 0
  exact ⟨a, b, R, Nat.lt_of_lt_of_le b.1.jiffies.toNat_lt (by decide)⟩

end K439.Sched
