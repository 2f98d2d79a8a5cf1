import Mathlib.Algebra.Group.Nat.Defs
import K439.Sched.Runs

/-!
# Timers

The list of the timers is a map from targets to queues (`queue`), sorted by target. `sleepUntil`
adds one process to one queue, for a target that is still to come. A tick looks at the head of the
list only, and this is enough as long as every target is greater than `jiffies` (`OnTime`): the
timer of the tick is the head if there is one, and it is taken out whole. The log says who went to
sleep and whom every tick woke up.
-/

namespace K439.Sched

open Machine

def Sorted (ts : List Timer) : Prop := (ts.map (·.target)).Pairwise (· < ·)

/-- Who waits for the target. -/
def queue (ts : List Timer) (target : UInt32) : List Pid :=
  (ts.filter (·.target = target)).flatMap (·.waiting)

section
variable {ts : List Timer} {t : Timer} {p : Pid} {target target' : UInt32}

theorem waiting_timer (m : Machine) : m.waiting (.timer target) = queue m.timers target := rfl

theorem queue_cons : queue (t :: ts) target = if t.target = target then t.waiting ++ queue ts target
    else queue ts target := by
  rw [queue, List.filter_cons]
  by_cases h : t.target = target <;> simp [h, queue]

theorem queue_eq_nil (h : ∀ t ∈ ts, t.target ≠ target) : queue ts target = [] := by
  rw [queue, List.filter_eq_nil_iff.mpr fun t ht => by simpa using h t ht]
  rfl

theorem Sorted.head_lt (h : Sorted (t :: ts)) {u : Timer} (hu : u ∈ ts) : t.target < u.target :=
  (List.pairwise_cons.mp h).1 _ (List.mem_map_of_mem hu)

theorem Sorted.tail (h : Sorted (t :: ts)) : Sorted ts := (List.pairwise_cons.mp h).2

theorem Sorted.queue_head (h : Sorted (t :: ts)) : queue (t :: ts) t.target = t.waiting := by
  rw [queue_cons, if_pos rfl, queue_eq_nil fun u hu => (UInt32.ne_of_lt (h.head_lt hu)).symm,
    List.append_nil]

/-- `addTail` with the queue of a timer that is in the list. -/
theorem queue_go (hs : Sorted ts) (h : ∃ t ∈ ts, t.target = target) :
    queue (addTail.go p target ts) target' = queue ts target' ++ if target' = target then [p]
    else [] := by
  induction ts with
  | nil =>
    obtain ⟨_, h, -⟩ := h
    cases h
  | cons t ts ih =>
    rw [addTail.go]
    split
    next ht =>
      subst ht
      rw [queue_cons, queue_cons]
      by_cases he : t.target = target'
      · subst he
        have hnil : queue ts t.target = [] :=
          queue_eq_nil fun u hu => (UInt32.ne_of_lt (hs.head_lt hu)).symm
        simp [hnil]
      · simp [he, Ne.symm he]
    next ht =>
      obtain ⟨u, hu, rfl⟩ := h
      have hmem : u ∈ ts := (List.mem_cons.mp hu).resolve_left fun he => ht (he ▸ rfl)
      rw [queue_cons, queue_cons, ih hs.tail ⟨u, hmem, rfl⟩]
      split
      · rw [List.append_assoc]
      · rfl

theorem queue_findTimer : queue (findTimer target ts) target' = queue ts target' :=
  findTimer_waiting ts target'

end

/-- What the timers depend on. -/
def Machine.clock (m : Machine) : List Timer × UInt32 × UInt32 := (m.timers, m.jiffies, m.hz)

namespace Machine

variable {m m' : Machine} {p : Pid} {me : Option Pid} {q : Option WaitQueue} {target : UInt32}

@[simp] theorem makeReady_clock : (m.makeReady p).clock = m.clock := by
  rw [makeReady_eq]
  rfl

@[simp] theorem dispatch_clock : (m.dispatch p me).clock = m.clock := rfl

@[simp] theorem newIdleProcess_clock : m.newIdleProcess.clock = m.clock := by
  rw [newIdleProcess, start, makeReady_eq]
  rfl

@[simp] theorem switch_clock : (m.switch me).clock = m.clock := by
  rw [switch]
  split
  · split
    · rfl
    · rw [dispatch_clock, newIdleProcess_clock]
  · rfl

theorem yield_clock (hq : ∀ target, q ≠ some (.timer target)) (h : m.yield q = some m') :
    m'.clock = m.clock := by
  obtain ⟨m₁, hl, h⟩ := Option.bind_eq_some_iff.mp h
  cases h
  rw [switch_clock]
  unfold leave at hl
  split at hl
  · cases hl
    rfl
  next me q hc =>
    split at hl
    · cases hl
    · cases hl
      cases q with
      | sem s => rfl
      | timer target => exact absurd rfl (hq target)
  · cases hl
    exact makeReady_clock

/-- The current process goes to the queue of the timer. -/
theorem yield_timer (h : m.yield (some (.timer target)) = some m') : m'.clock =
    (m.current.elim m.timers (addTail.go · target m.timers), m.jiffies, m.hz) := by
  obtain ⟨m₁, hl, h⟩ := Option.bind_eq_some_iff.mp h
  cases h
  rw [switch_clock]
  cases hc : m.current with
  | none =>
    simp only [leave, hc] at hl
    cases hl
    rfl
  | some me =>
    simp only [leave, hc] at hl
    split at hl
    · cases hl
    · cases hl
      rfl

theorem foldl_makeReady_clock (ps : List Pid) : (ps.foldl makeReady m).clock = m.clock := by
  induction ps generalizing m with
  | nil => rfl
  | cons p ps ih => rw [List.foldl_cons, ih, makeReady_clock]

theorem foldl_makeReady_readied (ps : List Pid) :
    (ps.foldl makeReady m).readied = m.readied ++ ps := by
  induction ps generalizing m with
  | nil => exact (List.append_nil _).symm
  | cons p ps ih =>
    rw [List.foldl_cons, ih, makeReady_eq, List.append_assoc]
    rfl

end Machine

/-- Who goes to sleep, and until when. -/
def Op.sleeper (m : Machine) : Op → List (Pid × UInt32)
  | .sleepUntil second =>
    if m.jiffies < second * m.hz then m.current.toList.map (·, second * m.hz) else []
  | .yieldOn (.timer target) => m.current.toList.map (·, target)
  | _ => []

/-- What an operation other than the tick does to the timers. -/
structure Slept (m m' : Machine) (new : List (Pid × UInt32)) : Prop where
  jiffies : m'.jiffies = m.jiffies
  hz : m'.hz = m.hz
  sorted : Sorted m.timers → Sorted m'.timers
  later : (∀ t ∈ m.timers, m.jiffies < t.target) →
    (∀ t ∈ m'.timers, m.jiffies < t.target) ∧ ∀ x ∈ new, m.jiffies < x.2
  queue : Sorted m.timers → ∀ target, queue m'.timers target =
    queue m.timers target ++ (new.filter (·.2 = target)).map (·.1)

variable {m m' : Machine} {target second : UInt32} {op : Op} {new : List (Pid × UInt32)}

namespace Slept

theorem of_clock (h : m'.clock = m.clock) : Slept m m' [] := by
  obtain ⟨ht, hj, hh⟩ : m'.timers = m.timers ∧ m'.jiffies = m.jiffies ∧ m'.hz = m.hz := by
    simpa [Machine.clock] using h
  refine ⟨hj, hh, ?_, fun hl => ⟨?_, fun _ hx => absurd hx List.not_mem_nil⟩,
    fun _ target => ?_⟩
  · rw [ht]
    exact id
  · rwa [ht]
  · rw [ht]
    exact (List.append_nil _).symm

/-- Only the targets matter to the order. -/
theorem target_mem {ts ts' : List Timer} (h : ts'.map (·.target) = ts.map (·.target)) {t : Timer}
    (ht : t ∈ ts') : ∃ u ∈ ts, u.target = t.target := by
  have hmem : t.target ∈ ts'.map (·.target) := List.mem_map_of_mem ht
  rw [h] at hmem
  exact List.mem_map.mp hmem

theorem yield_timer (hex : ∃ t ∈ m.timers, t.target = target)
    (h : m.yield (some (.timer target)) = some m') :
    Slept m m' (m.current.toList.map (·, target)) := by
  have hclock := Machine.yield_timer h
  cases hc : m.current with
  | none =>
    rw [hc] at hclock
    exact of_clock hclock
  | some me =>
    rw [hc] at hclock
    obtain ⟨ht, hj, hh⟩ : m'.timers = addTail.go me target m.timers ∧
        m'.jiffies = m.jiffies ∧ m'.hz = m.hz := by
      simpa [Machine.clock] using hclock
    have htargets : m'.timers.map (·.target) = m.timers.map (·.target) := by rw [ht, go_targets]
    refine ⟨hj, hh, fun hs => ?_, fun hl => ⟨fun t ht => ?_, fun x hx => ?_⟩,
      fun hs target' => ?_⟩
    · rwa [Sorted, htargets]
    · obtain ⟨u, hu, he⟩ := target_mem htargets ht
      exact he ▸ hl u hu
    · obtain rfl := List.mem_singleton.mp hx
      obtain ⟨u, hu, rfl⟩ := hex
      exact hl u hu
    · rw [ht, queue_go hs hex]
      by_cases he : target' = target
      · simp [he]
      · simp [he, Ne.symm he]

theorem sleepUntil (h : m.sleepUntil second = some m') :
    Slept m m' ((Op.sleepUntil second).sleeper m) := by
  rw [Machine.sleepUntil] at h
  rw [Op.sleeper]
  split at h
  next hlt =>
    have S := yield_timer (findTimer_exists m.timers) h
    rw [if_pos hlt]
    refine ⟨S.jiffies, S.hz, fun hs => S.sorted (findTimer_sorted m.timers hs),
      fun hl => S.later fun t ht => ?_,
      fun hs target => ?_⟩
    · rcases findTimer_targets m.timers t.target (List.mem_map_of_mem ht) with he | he
      · exact he ▸ hlt
      · obtain ⟨u, hu, he⟩ := List.mem_map.mp he
        exact he ▸ hl u hu
    · rw [S.queue (findTimer_sorted m.timers hs), queue_findTimer]
  next hle =>
    cases h
    rw [if_neg hle]
    exact of_clock rfl

end Slept

/-- An operation is the tick, or it puts somebody to sleep at most. -/
theorem Step.slept (h : Step m op m') (hop : op ≠ .tick) : Slept m m' (op.sleeper m) := by
  obtain ⟨ha, h⟩ := h
  cases op with
  | tick => exact absurd rfl hop
  | sleepUntil second => exact Slept.sleepUntil h
  | yieldOn q =>
    cases q with
    | sem s => exact .of_clock (Machine.yield_clock (by simp) h)
    | timer target => exact .yield_timer ha h
  | construct =>
    cases h
    exact .of_clock rfl
  | endIrq =>
    cases h
    refine .of_clock ?_
    rw [Machine.endIrq]
    split <;> rfl
  | start p =>
    cases h
    exact .of_clock makeReady_clock
  | boot =>
    cases h
    exact .of_clock newIdleProcess_clock
  | yield => exact .of_clock (Machine.yield_clock (by simp) h)
  | down s =>
    refine .of_clock ?_
    rw [Op.exec, Machine.down] at h
    split at h
    · split at h
      · cases h
      · exact Machine.yield_clock (by simp) h
    · cases h
      rfl
  | up s =>
    cases h
    refine .of_clock ?_
    rw [Machine.up]
    split
    · rfl
    · exact makeReady_clock
  | exit =>
    refine .of_clock ?_
    rw [Op.exec, Machine.exit] at h
    split at h
    · cases h
      rfl
    · have hclock := Machine.yield_clock (by simp) h
      exact hclock
  | checkReaper =>
    cases h
    refine .of_clock ?_
    rw [Machine.checkReaper]
    split <;> rfl
  | startIrq =>
    obtain ⟨me, -, rfl⟩ := Option.map_eq_some_iff.mp h
    exact .of_clock rfl

/-! ## The tick -/

/-- The queue of the time of `m` is taken out. -/
structure Fired (m m' : Machine) : Prop where
  jiffies : m'.jiffies = m.jiffies
  hz : m'.hz = m.hz
  sorted : Sorted m'.timers
  later : ∀ t ∈ m'.timers, m.jiffies < t.target
  queue : ∀ target, m.jiffies < target → queue m'.timers target = queue m.timers target
  readied : m'.readied = m.readied ++ Sched.queue m.timers m.jiffies

theorem Machine.fire_fired (hs : Sorted m.timers)
    (hl : ∀ t ∈ m.timers, m.jiffies ≤ t.target) : Fired m m.fire := by
  unfold fire
  split
  next ht =>
    refine ⟨rfl, rfl, hs, ?_, fun _ _ => rfl, ?_⟩
    · rw [ht]
      exact fun t ht => absurd ht List.not_mem_nil
    · rw [ht]
      exact (List.append_nil _).symm
  next first timers ht =>
    rw [ht] at hs hl
    split
    next heq =>
      have hclock := foldl_makeReady_clock (m := { m with timers := timers }) first.waiting
      obtain ⟨ht', hj, hh⟩ :
          (first.waiting.foldl makeReady { m with timers := timers }).timers = timers ∧
          (first.waiting.foldl makeReady { m with timers := timers }).jiffies = m.jiffies ∧
          (first.waiting.foldl makeReady { m with timers := timers }).hz = m.hz := by
        simpa [Machine.clock] using hclock
      refine ⟨hj, hh, ?_, ?_, fun target hlt => ?_, ?_⟩
      · rw [ht']
        exact hs.tail
      · rw [ht', heq]
        exact fun t ht => hs.head_lt ht
      · rw [ht', ht, queue_cons, if_neg (heq ▸ UInt32.ne_of_lt hlt)]
      · rw [foldl_makeReady_readied, ht, heq, hs.queue_head]
    next hne =>
      -- the head is still to come, and so is everything behind it
      have hfirst : m.jiffies < first.target :=
        UInt32.lt_of_le_of_ne (hl first List.mem_cons_self) hne
      have hlater : ∀ t ∈ first :: timers, m.jiffies < t.target := by
        intro t ht
        rcases List.mem_cons.mp ht with rfl | ht
        · exact hfirst
        · exact UInt32.lt_trans hfirst (hs.head_lt ht)
      refine ⟨rfl, rfl, ht ▸ hs, ht ▸ hlater, fun _ _ => rfl, ?_⟩
      rw [ht, queue_eq_nil fun t ht => (UInt32.ne_of_lt (hlater t ht)).symm, List.append_nil]

theorem Machine.tick_fired (hs : Sorted m.timers)
    (hl : ∀ t ∈ m.timers, m.jiffies ≤ t.target) : Fired m m.tick := by
  rw [tick]
  split
  · obtain ⟨hj, hh, hs', hl', hq, hr⟩ :=
      fire_fired (m := { m with idleJiffies := m.idleJiffies + 1 }) hs hl
    exact ⟨hj, hh, hs', hl', hq, hr⟩
  · exact fire_fired hs hl

theorem Machine.fire_hz : m.fire.hz = m.hz := by
  unfold fire
  split
  · rfl
  · split
    · exact congrArg (·.2.2) (foldl_makeReady_clock (m := { m with timers := _ }) _)
    · rfl

theorem Machine.handler_hz : m.handler.hz = m.hz := by
  rw [handler, tick]
  split <;> rw [fire_hz]

/-! ## The runs -/

/-- Who went to sleep, and for each tick whom it woke up. -/
structure Log where
  slept : List (Pid × UInt32)
  ticks : List (List Pid)
  deriving DecidableEq

namespace Log

def nil : Log := ⟨[], []⟩

/-- Who slept until the target, in the order of the calls. -/
def sleepers (l : Log) (target : UInt32) : List Pid := (l.slept.filter (·.2 = target)).map (·.1)

/-- The log after an operation that led from `m` to `m'`. -/
def record (l : Log) (m : Machine) (op : Op) (m' : Machine) : Log where
  slept := l.slept ++ op.sleeper m
  ticks :=
    match op with
    | .tick => l.ticks ++ [m'.readied.drop m.readied.length]
    | _ => l.ticks

theorem sleepers_append {l l' : Log} {new : List (Pid × UInt32)} (h : l'.slept = l.slept ++ new) :
    l'.sleepers target = l.sleepers target ++ (new.filter (·.2 = target)).map (·.1) := by
  rw [sleepers, h, List.filter_append, List.map_append]
  rfl

end Log

/-- A step, with the log. -/
def Logged (a : Machine × Log) (op : Op) (b : Machine × Log) : Prop :=
  Step a.1 op b.1 ∧ b.2 = a.2.record a.1 op b.1

/-- The timers are in order, and none is overdue. Every tick woke up exactly those that slept until
then, in the order in which they went to sleep, and those that sleep longer are waiting. -/
structure OnTime (m : Machine) (l : Log) : Prop where
  sorted : (m.timers.map (·.target)).Pairwise (· < ·)
  later : ∀ t ∈ m.timers, m.jiffies < t.target
  waiting : ∀ target, m.jiffies < target → m.waiting (.timer target) = l.sleepers target
  ticks : l.ticks = (List.range m.jiffies.toNat).map fun i => l.sleepers (i + 1).toUInt32

namespace OnTime

variable {l l' : Log}

theorem slept (O : OnTime m l) (S : Slept m m' new) (h : l'.slept = l.slept ++ new)
    (ht : l'.ticks = l.ticks) : OnTime m' l' := by
  obtain ⟨hl, hnew⟩ := S.later O.later
  refine ⟨S.sorted O.sorted, S.jiffies ▸ hl, fun target hlt => ?_, ?_⟩
  · rw [S.jiffies] at hlt
    rw [waiting_timer, S.queue O.sorted, Log.sleepers_append h, ← O.waiting target hlt]
    rfl
  · rw [ht, O.ticks, S.jiffies]
    refine List.map_congr_left fun i hi => ?_
    -- nobody goes to sleep until a time that has passed
    have hnil : new.filter (·.2 = (i + 1).toUInt32) = [] := by
      refine List.filter_eq_nil_iff.mpr fun x hx he => ?_
      have hlt := UInt32.lt_iff_toNat_lt.mp (hnew x hx)
      rw [of_decide_eq_true he] at hlt
      have hi := List.mem_range.mp hi
      have hmax := m.jiffies.toNat_lt
      simp at hlt
      omega
    rw [Log.sleepers_append h, hnil]
    exact (List.append_nil _).symm

theorem tick (O : OnTime m l) (hmax : m.jiffies.toNat + 1 < 2 ^ 32) (h : l'.slept = l.slept)
    (ht : l'.ticks = l.ticks ++ [m.handler.readied.drop m.readied.length]) :
    OnTime m.handler l' := by
  have hj : (m.jiffies + 1).toNat = m.jiffies.toNat + 1 := by
    rw [UInt32.toNat_add]
    exact Nat.mod_eq_of_lt hmax
  have hlt : m.jiffies < m.jiffies + 1 := by
    rw [UInt32.lt_iff_toNat_lt, hj]
    exact Nat.lt_succ_self _
  have F := Machine.tick_fired (m := { m with jiffies := m.jiffies + 1 }) O.sorted fun t ht => by
    have hlater := UInt32.lt_iff_toNat_lt.mp (O.later t ht)
    rw [UInt32.le_iff_toNat_le, hj]
    exact hlater
  have hjiffies : m.handler.jiffies = m.jiffies + 1 := F.jiffies
  have hslept : ∀ target, l'.sleepers target = l.sleepers target :=
    fun target => by rw [Log.sleepers, h, Log.sleepers]
  refine ⟨F.sorted, fun t ht => hjiffies ▸ F.later t ht, fun target hgt => ?_, ?_⟩
  · rw [hjiffies] at hgt
    rw [hslept, ← O.waiting target (UInt32.lt_trans hlt hgt)]
    exact F.queue target hgt
  · have hdrop : m.handler.readied.drop m.readied.length = l.sleepers (m.jiffies + 1) := by
      rw [← O.waiting _ hlt]
      exact (congrArg (List.drop m.readied.length) F.readied).trans List.drop_left
    have hlast : (m.jiffies.toNat + 1).toUInt32 = m.jiffies + 1 := by
      rw [← hj]
      exact UInt32.ofNat_toNat
    rw [ht, hdrop, O.ticks, hjiffies, hj, List.range_succ, List.map_append,
      List.map_singleton, hlast]
    simp only [hslept]

theorem jiffies_eq (O : OnTime m l) : m.jiffies.toNat = l.ticks.length := by
  rw [O.ticks, List.length_map, List.length_range]

theorem step {a b : Machine × Log} (O : OnTime a.1 a.2) (h : Logged a op b)
    (hlt : b.2.ticks.length < 2 ^ 32) : OnTime b.1 b.2 := by
  obtain ⟨m, l⟩ := a
  obtain ⟨m', l'⟩ := b
  obtain ⟨hstep, rfl⟩ : Step m op m' ∧ l' = l.record m op m' := h
  by_cases hop : op = .tick
  · subst hop
    obtain ⟨-, hm'⟩ := hstep
    cases hm'
    refine O.tick ?_ (List.append_nil _) rfl
    rw [Log.record, List.length_append] at hlt
    rwa [O.jiffies_eq]
  · refine O.slept (hstep.slept hop) rfl ?_
    cases op with
    | tick => exact absurd rfl hop
    | _ => rfl

end OnTime

theorem Logged.ticks_le {a b : Machine × Log} (h : Logged a op b) :
    a.2.ticks.length ≤ b.2.ticks.length := by
  rw [h.2]
  cases op with
  | tick =>
    rw [Log.record, List.length_append]
    exact Nat.le_add_right ..
  | _ => exact Nat.le_refl _

theorem Logged.hz {a b : Machine × Log} (h : Logged a op b) : b.1.hz = a.1.hz := by
  by_cases hop : op = .tick
  · subst hop
    obtain ⟨⟨-, hb⟩, -⟩ := h
    rw [← Option.some.inj hb]
    exact Machine.handler_hz
  · exact (h.1.slept hop).hz

theorem OnTime.init (count : Nat → Int32) (hz : UInt32) (state : Pid → State) :
    OnTime (Machine.init count hz state) .nil where
  sorted := .nil
  later := nofun
  waiting _ _ := rfl
  ticks := rfl

/-- **Timers fire once and on time.** A call of `sleepUntil` for a time that has come returns at
once, and one for a later time puts the process to sleep. -/
theorem timers_on_time {count : Nat → Int32} {hz : UInt32} {state : Pid → State} {ops : List Op}
    {a : Machine × Log} (h : Run Logged (Machine.init count hz state, .nil) ops a)
    (hlt : a.2.ticks.length < 2 ^ 32) :
    OnTime a.1 a.2 ∧
    ∀ second, (second * a.1.hz ≤ a.1.jiffies → a.1.sleepUntil second = some a.1) ∧
      ∀ me m', a.1.jiffies < second * a.1.hz → a.1.current = some me →
      a.1.sleepUntil second = some m' →
        me ∈ m'.waiting (.timer (second * a.1.hz)) := by
  have O : OnTime a.1 a.2 := by
    refine h.inv (I := fun a : Machine × Log => a.2.ticks.length < 2 ^ 32 → OnTime a.1 a.2)
      (fun _ _ _ ih h hlt => ?_) (fun _ => OnTime.init count hz state) hlt
    exact (ih (Nat.lt_of_le_of_lt h.ticks_le hlt)).step h hlt
  refine ⟨O, fun second => ⟨fun hle => if_neg (UInt32.not_lt.mpr hle),
    fun me m' hgt hme h => ?_⟩⟩
  have S := Slept.sleepUntil h
  rw [Op.sleeper, if_pos hgt, hme] at S
  rw [waiting_timer, S.queue O.sorted]
  simp

/-- The steps of these runs as a function. -/
def logged (a : Machine × Log) (op : Op) : Option (Machine × Log) :=
  (op.next a.1).map fun m => (m, a.2.record a.1 op m)

theorem logged_step {a b : Machine × Log} (h : logged a op = some b) : Logged a op b := by
  obtain ⟨m, hm, rfl⟩ := Option.map_eq_some_iff.mp h
  exact ⟨Op.next_step hm, rfl⟩

/-- One process sleeps until 3, two until 2, and there are four ticks. -/
theorem timers_on_time_three : ∃ a : Machine × Log, a.2.slept = [(0, 3), (1, 2), (2, 2)] ∧
    a.2.ticks = [[], [1, 2], [0], []] ∧ OnTime a.1 a.2 := by
  have hrun : ([Op.construct, .construct, .construct, .boot, .start 0, .start 1, .start 2, .yield,
      .sleepUntil 3, .sleepUntil 2, .sleepUntil 2, .tick, .tick, .tick, .tick].foldlM logged
        (Machine.init (fun _ => 0) 1 fun _ => .READY, .nil)).map (·.2) =
          some ⟨[(0, 3), (1, 2), (2, 2)], [[], [1, 2], [0], []]⟩ := by
    decide +kernel
  obtain ⟨a, ha, he⟩ := Option.map_eq_some_iff.mp hrun
  have h := Run.of_foldlM (fun _ _ _ => logged_step) ha
  refine ⟨a, congrArg Log.slept he, congrArg Log.ticks he, (timers_on_time h ?_).1⟩
  rw [he]
  decide

end K439.Sched
