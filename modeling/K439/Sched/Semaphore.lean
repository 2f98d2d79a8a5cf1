import K439.Sched.Runs

/-!
# Semaphores

What the scheduler does to one semaphore. `up` hands its unit to the process that waited longest and
leaves the count alone; `down` resumes from the queue without taking anything. `Conserved` is the
balance over whole runs, with the history of the semaphore beside its state.
-/

namespace K439.Sched

namespace Semaphore

/-- The count of a semaphore that can be taken. -/
theorem toInt_sub_one {c : Int32} (h0 : 0 ≤ c) (h : c ≠ 0) : (c - 1).toInt = c.toInt - 1 := by
  have hle := Int32.le_iff_toInt_le.mp h0
  have hlt := c.toInt_lt
  have hz : c.toInt ≠ 0 := fun h' => h (Int32.toInt_inj.mp h')
  rw [Int32.toInt_sub]
  simp only [Int32.toInt_zero, Int32.toInt_one] at *
  rw [Int.bmod_eq_of_le] <;> omega

/-- The count of a semaphore that is not at the largest `int`. -/
theorem toInt_add_one {c : Int32} (h0 : 0 ≤ c) (h : c ≠ 2147483647) :
    (c + 1).toInt = c.toInt + 1 := by
  have hle := Int32.le_iff_toInt_le.mp h0
  have hlt := c.toInt_lt
  have hz : c.toInt ≠ 2147483647 := fun h' => h (Int32.toInt_inj.mp h')
  rw [Int32.toInt_add]
  simp only [Int32.toInt_zero, Int32.toInt_one] at *
  rw [Int.bmod_eq_of_le] <;> omega

/-- `down` by `p`: a process that does not get a unit waits. -/
def down (x : Semaphore) (p : Pid) : Semaphore :=
  if x.count = 0 then { x with waiting := x.waiting ++ [p] } else { x with count := x.count - 1 }

/-- `up`: the first process that waits gets the unit. -/
def up (x : Semaphore) : Semaphore :=
  match x.waiting with
  | [] => { x with count := x.count + 1 }
  | _ :: waiting => { x with waiting := waiting }

variable {x : Semaphore} {p : Pid} {waiting : List Pid}

theorem down_block (h : x.count = 0) : x.down p = { x with waiting := x.waiting ++ [p] } := if_pos h

theorem down_take (h : x.count ≠ 0) : x.down p = { x with count := x.count - 1 } := if_neg h

theorem up_raise (h : x.waiting = []) : x.up = { x with count := x.count + 1 } := by rw [up, h]

theorem up_hand (h : x.waiting = p :: waiting) : x.up = { x with waiting := waiting } := by
  rw [up, h]

/-- No process waits for a unit that is there. -/
structure Sound (x : Semaphore) : Prop where
  count : 0 ≤ x.count
  waiting : x.waiting ≠ [] → x.count = 0

namespace Sound

theorem down (h : x.Sound) : (x.down p).Sound := by
  rcases decEq x.count 0 with hne | h0
  · rw [down_take hne]
    refine ⟨Int32.le_iff_toInt_le.mpr ?_, fun hw => absurd (h.waiting hw) hne⟩
    have hle := Int32.le_iff_toInt_le.mp h.count
    have hz : x.count.toInt ≠ 0 := fun h' => hne (Int32.toInt_inj.mp h')
    rw [toInt_sub_one h.count hne]
    simp only [Int32.toInt_zero] at hle ⊢
    omega
  · rw [down_block h0]
    exact ⟨h.count, fun _ => h0⟩

theorem up (h : x.Sound) (hmax : x.waiting = [] → x.count ≠ 2147483647) : x.up.Sound := by
  rcases hw : x.waiting with _ | ⟨p, waiting⟩
  · rw [up_raise hw]
    refine ⟨Int32.le_iff_toInt_le.mpr ?_, fun h => absurd hw h⟩
    have hle := Int32.le_iff_toInt_le.mp h.count
    rw [toInt_add_one h.count (hmax hw)]
    simp only [Int32.toInt_zero] at hle ⊢
    omega
  · rw [up_hand hw]
    exact ⟨h.count, fun _ => h.waiting (by simp [hw])⟩

end Sound

end Semaphore

namespace Machine

variable {m m' : Machine} {s t : Nat} {p me : Pid} {q : Option WaitQueue}

@[simp] theorem makeReady_sems : (m.makeReady p).sems = m.sems := by
  rw [makeReady]
  dsimp only
  split <;> rfl

@[simp] theorem dispatch_sems : (m.dispatch p me?).sems = m.sems := rfl

@[simp] theorem switch_sems : (m.switch me?).sems = m.sems := by
  rw [switch]
  split
  · split
    · rfl
    · rw [dispatch_sems, newIdleProcess, start, makeReady_sems]
  · rfl

theorem foldl_makeReady_sems (ps : List Pid) : (ps.foldl makeReady m).sems = m.sems := by
  induction ps generalizing m with
  | nil => rfl
  | cons p ps ih => rw [List.foldl_cons, ih, makeReady_sems]

@[simp] theorem fire_sems : m.fire.sems = m.sems := by
  rw [fire]
  split
  · rfl
  · split
    · exact foldl_makeReady_sems _
    · rfl

@[simp] theorem tick_sems : m.tick.sems = m.sems := by
  rw [tick]
  split <;> exact fire_sems

/-- Only the queue that is given to `yield` changes. -/
theorem yield_sems (hq : q ≠ some (.sem s)) (h : m.yield q = some m') : m'.sems s = m.sems s := by
  obtain ⟨m₁, hl, h⟩ := Option.bind_eq_some_iff.mp h
  cases h
  rw [switch_sems]
  unfold leave at hl
  split at hl
  · cases hl
    rfl
  next me q hc =>
    split at hl
    · cases hl
    · cases hl
      cases q with
      | sem t => exact Function.update_of_ne (fun h => hq (by rw [h])) ..
      | timer => rfl
  · cases hl
    rw [makeReady_sems]

/-- A process that blocks on a semaphore goes to the end of its queue. -/
theorem yield_sem (hc : m.current = some me) (h : m.yield (some (.sem s)) = some m') :
    m'.sems s = { m.sems s with waiting := (m.sems s).waiting ++ [me] } := by
  obtain ⟨m₁, hl, h⟩ := Option.bind_eq_some_iff.mp h
  cases h
  simp only [leave, hc] at hl
  split at hl
  · cases hl
  · cases hl
    rw [switch_sems]
    exact Function.update_self ..

end Machine

/-- What an operation makes of the semaphore `s`. -/
inductive SemEffect (m : Machine) (s : Nat) (x : Semaphore) : Op → Prop
  | other (hd : op ≠ .down s) (hu : op ≠ .up s) (hx : x = m.sems s) : SemEffect m s x op
  | down (hc : (m.sems s).count = 0 → m.current = some me) (hx : x = (m.sems s).down me) :
      SemEffect m s x (.down s)
  | up (hx : x = (m.sems s).up) : SemEffect m s x (.up s)

variable {m m' : Machine} {s : Nat} {p : Pid} {op : Op}

theorem Step.semEffect (h : Step m op m') (hop : op ≠ .yieldOn (.sem s)) :
    SemEffect m s (m'.sems s) op := by
  obtain ⟨-, h⟩ := h
  cases op with
  | down t =>
    rcases Nat.decEq t s with hne | rfl
    · refine .other (fun h => hne (Op.down.inj h)) (by simp) ?_
      rw [Op.exec, Machine.down] at h
      split at h
      · split at h
        · cases h
        · exact Machine.yield_sems (fun h => hne (by simpa using h)) h
      · cases h
        exact Function.update_of_ne (Ne.symm hne) ..
    · rw [Op.exec, Machine.down] at h
      split at h
      next h0 =>
        split at h
        · cases h
        next hc =>
          obtain ⟨me, hme⟩ := Option.ne_none_iff_exists'.mp hc
          refine .down (fun _ => hme) ?_
          rw [Semaphore.down, if_pos h0]
          exact Machine.yield_sem hme h
      next h0 =>
        cases h
        refine .down (show (m.sems t).count = 0 → m.current = some 0 from fun h => absurd h h0) ?_
        rw [Semaphore.down, if_neg h0]
        exact Function.update_self ..
  | up t =>
    cases h
    rcases Nat.decEq t s with hne | rfl
    · refine .other (by simp) (fun h => hne (Op.up.inj h)) ?_
      rw [Machine.up]
      split
      · exact Function.update_of_ne (Ne.symm hne) _ m.sems
      · rw [Machine.makeReady_sems]
        exact Function.update_of_ne (Ne.symm hne) _ m.sems
    · refine .up ?_
      rcases hw : (m.sems t).waiting with _ | ⟨p, waiting⟩
      · simp only [Machine.up, Semaphore.up, hw, Machine.setSem, Function.update_self]
      · simp only [Machine.up, Semaphore.up, hw, Machine.makeReady_sems, Machine.setSem,
          Function.update_self]
  | construct =>
    cases h
    exact .other (by simp) (by simp) rfl
  | start p =>
    cases h
    exact .other (by simp) (by simp) (by rw [Machine.start, Machine.makeReady_sems])
  | boot =>
    cases h
    exact .other (by simp) (by simp)
      (by rw [Machine.newIdleProcess, Machine.start, Machine.makeReady_sems])
  | yield => exact .other (by simp) (by simp) (Machine.yield_sems (by simp) h)
  | yieldOn q =>
    exact .other (by simp) (by simp) (Machine.yield_sems (fun h => hop (by cases h; rfl)) h)
  | sleepUntil second =>
    refine .other (by simp) (by simp) ?_
    rw [Op.exec, Machine.sleepUntil] at h
    split at h
    · have hsems := Machine.yield_sems (s := s) (by simp) h
      exact hsems
    · cases h
      rfl
  | tick =>
    cases h
    exact .other (by simp) (by simp) (by rw [Machine.handler, Machine.tick_sems])
  | exit =>
    refine .other (by simp) (by simp) ?_
    rw [Op.exec, Machine.exit] at h
    split at h
    · cases h
      rfl
    · have hsems := Machine.yield_sems (s := s) (by simp) h
      exact hsems
  | checkReaper =>
    cases h
    refine .other (by simp) (by simp) ?_
    rw [Machine.checkReaper]
    split <;> rfl
  | startIrq =>
    obtain ⟨me, -, rfl⟩ := Option.map_eq_some_iff.mp h
    exact .other (by simp) (by simp) rfl
  | endIrq =>
    cases h
    refine .other (by simp) (by simp) ?_
    rw [Machine.endIrq]
    split <;> rfl

/-! ## The balance -/

/-- What was done to a semaphore. -/
structure History where
  /-- the calls of `up` -/
  ups : Nat
  /-- the calls of `down` that got a unit, one that waited at the `up` that handed it over -/
  granted : Nat
  /-- who blocked, and who was granted after blocking, in order -/
  blocked : List Pid
  handed : List Pid

namespace History

def nil : History := ⟨0, 0, [], []⟩

/-- The history after an operation on the machine `m`. -/
def record (h : History) (s : Nat) (m : Machine) : Op → History
  | .down t =>
    if t ≠ s then h
    else if (m.sems s).count = 0 then { h with blocked := h.blocked ++ m.current.toList }
    else { h with granted := h.granted + 1 }
  | .up t =>
    if t ≠ s then h
    else
      match (m.sems s).waiting with
      | [] => { h with ups := h.ups + 1 }
      | p :: _ => { h with ups := h.ups + 1, granted := h.granted + 1, handed := h.handed ++ [p] }
  | _ => h

variable {h : History} {me : Pid} {waiting : List Pid}

theorem record_other (hd : op ≠ .down s) (hu : op ≠ .up s) : h.record s m op = h := by
  cases op with
  | down t => exact if_pos fun h => hd (by rw [h])
  | up t => exact if_pos fun h => hu (by rw [h])
  | _ => rfl

theorem record_block (hc : (m.sems s).count = 0) (hme : m.current = some me) :
    h.record s m (.down s) = { h with blocked := h.blocked ++ [me] } := by
  rw [record, if_neg (not_not.mpr rfl), if_pos hc, hme]
  rfl

theorem record_take (hc : (m.sems s).count ≠ 0) :
    h.record s m (.down s) = { h with granted := h.granted + 1 } := by
  rw [record, if_neg (not_not.mpr rfl), if_neg hc]

theorem record_raise (hw : (m.sems s).waiting = []) :
    h.record s m (.up s) = { h with ups := h.ups + 1 } := by
  rw [record, if_neg (not_not.mpr rfl), hw]

theorem record_hand (hw : (m.sems s).waiting = p :: waiting) : h.record s m (.up s) =
    { h with ups := h.ups + 1, granted := h.granted + 1, handed := h.handed ++ [p] } := by
  rw [record, if_neg (not_not.mpr rfl), hw]

end History

/-- A step of the scheduler, with the history of the semaphore `s`. -/
def Observed (s : Nat) (a : Machine × History) (op : Op) (b : Machine × History) : Prop :=
  Step a.1 op b.1 ∧ b.2 = a.2.record s a.1 op

/-- The queue of a semaphore is its own, and `up` is not called at the largest count. -/
def Bounded (s : Nat) (a : Machine × History) : Op → Prop
  | .yieldOn q => q ≠ .sem s
  | .up t => t = s → (a.1.sems s).waiting = [] → (a.1.sems s).count ≠ 2147483647
  | _ => True

instance (s : Nat) (a : Machine × History) : (op : Op) → Decidable (Bounded s a op)
  | .yieldOn q => inferInstanceAs (Decidable (q ≠ .sem s))
  | .up t => inferInstanceAs
    (Decidable (t = s → (a.1.sems s).waiting = [] → (a.1.sems s).count ≠ 2147483647))
  | .construct | .start _ | .boot | .yield | .down _ | .sleepUntil _ | .tick | .exit | .checkReaper
  | .startIrq | .endIrq => inferInstanceAs (Decidable True)

/-- A semaphore that started with the count `n`. -/
structure Conserved (n : Int32) (x : Semaphore) (h : History) : Prop extends x.Sound where
  balance : n.toInt + h.ups = x.count.toInt + h.granted
  order : h.blocked = h.handed ++ x.waiting

namespace Conserved

variable {n : Int32} {h : History}

theorem step {a b : Machine × History} (C : Conserved n (a.1.sems s) a.2) (hb : Bounded s a op)
    (h : Observed s a op b) : Conserved n (b.1.sems s) b.2 := by
  obtain ⟨m, l⟩ := a
  obtain ⟨m', l'⟩ := b
  obtain ⟨hstep, rfl⟩ : Step m op m' ∧ l' = l.record s m op := h
  obtain ⟨hx, hbalance, horder⟩ := C
  dsimp only at hx hbalance horder hb ⊢
  have hop : op ≠ .yieldOn (.sem s) := by
    rintro rfl
    exact hb rfl
  cases hstep.semEffect hop with
  | other hd hu h =>
    rw [h, History.record_other hd hu]
    exact ⟨hx, hbalance, horder⟩
  | @down me hc h =>
    have hx' : (m'.sems s).Sound := h ▸ hx.down
    rcases decEq (m.sems s).count 0 with hne | h0
    · rw [Semaphore.down_take hne] at h
      rw [h] at hx' ⊢
      rw [History.record_take hne]
      refine ⟨hx', ?_, horder⟩
      have hpred := Semaphore.toInt_sub_one hx.count hne
      dsimp only
      omega
    · rw [Semaphore.down_block h0] at h
      rw [h] at hx' ⊢
      rw [History.record_block h0 (hc h0)]
      refine ⟨hx', hbalance, ?_⟩
      rw [horder, List.append_assoc]
  | up h =>
    have hx' : (m'.sems s).Sound := h ▸ hx.up (hb rfl)
    rcases hw : (m.sems s).waiting with _ | ⟨p, waiting⟩
    · rw [Semaphore.up_raise hw] at h
      rw [h] at hx' ⊢
      rw [History.record_raise hw]
      refine ⟨hx', ?_, horder⟩
      have hsucc := Semaphore.toInt_add_one hx.count (hb rfl hw)
      dsimp only
      omega
    · -- the unit goes from the caller to `p`, the count stays 0
      rw [Semaphore.up_hand hw] at h
      rw [h] at hx' ⊢
      rw [History.record_hand hw]
      refine ⟨hx', ?_, ?_⟩
      · dsimp only
        omega
      · rw [horder, hw, List.append_assoc]
        rfl

end Conserved

/-- **Units are neither lost nor made**, and the processes get them in the order in which they
blocked. -/
theorem semaphore_conserved {m₀ : Machine} {a : Machine × History} {ops : List Op}
    (hn : 0 ≤ (m₀.sems s).count) (hw : (m₀.sems s).waiting = [])
    (h : Run (Run.Within (Observed s) (Bounded s)) (m₀, .nil) ops a) :
    Conserved (m₀.sems s).count (a.1.sems s) a.2 := by
  refine h.inv_of (I := fun a => Conserved (m₀.sems s).count (a.1.sems s) a.2)
    (fun _ _ _ C hb h => C.step hb h) ⟨⟨hn, fun h => absurd hw h⟩, rfl, ?_⟩
  rw [hw]
  rfl

/-- The steps of these runs as a function. -/
def observe (s : Nat) (a : Machine × History) (op : Op) : Option (Machine × History) :=
  if Bounded s a op then (op.next a.1).map fun m => (m, a.2.record s a.1 op) else none

theorem observe_within {a b : Machine × History} (h : observe s a op = some b) :
    Run.Within (Observed s) (Bounded s) a op b := by
  rw [observe] at h
  split at h
  next hb =>
    obtain ⟨m, hm, rfl⟩ := Option.map_eq_some_iff.mp h
    exact ⟨⟨Op.next_step hm, rfl⟩, hb⟩
  · cases h

/-- Two processes block on a semaphore without units, and the first one gets a unit. -/
theorem semaphore_conserved_handOff : ∃ a : Machine × History,
    a.2.blocked = [0, 1] ∧ a.2.handed = [0] ∧ Conserved 0 (a.1.sems 0) a.2 := by
  have hrun : ([Op.construct, .construct, .boot, .start 0, .start 1, .yield, .down 0, .down 0,
      .up 0].foldlM (observe 0) (Machine.init (fun _ => 0) 1000 fun _ => .READY, .nil)).map
        (fun a => (a.2.blocked, a.2.handed)) = some ([0, 1], [0]) := by
    decide +kernel
  obtain ⟨a, ha, he⟩ := Option.map_eq_some_iff.mp hrun
  have h := Run.of_foldlM (fun _ _ _ => observe_within) ha
  exact ⟨a, congrArg Prod.fst he, congrArg Prod.snd he, semaphore_conserved (by decide) rfl h⟩

/-- An `up` at the largest count makes it negative. -/
theorem up_overflow : ∃ a : Machine × History,
    Run (Observed 0) (Machine.init (fun _ => 2147483647) 1000 fun _ => .READY, .nil) [.up 0] a ∧
      (a.1.sems 0).count < 0 ∧ ¬Conserved 2147483647 (a.1.sems 0) a.2 := by
  refine ⟨(_, _), .single ⟨⟨trivial, rfl⟩, rfl⟩, by decide, ?_⟩
  intro C
  exact absurd C.count (by decide)

end K439.Sched
